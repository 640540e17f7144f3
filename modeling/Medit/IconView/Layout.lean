import Mathlib.Algebra.Group.Nat.Defs
import Mathlib.Algebra.GroupWithZero.Nat
import Mathlib.Data.List.Nodup
import Mathlib.Logic.Function.Basic
import Medit.Library.Rectangles

/-!
# The columns of an icon view

Models the layout of `mooiconview.cpp`: the rows of a model are put in columns from top to bottom,
with as many rows in each column as the view is high. Points of the view are taken to rows, and
rows to the places where they are drawn. Paths are numbers of rows.

## Main definitions

* `updateLayout` — the columns of `moo_icon_view_update_layout`.
* `Layout.getPathAtPos` — the row at a point.
* `Layout.draw` — what is drawn, with the places.
* `Tiled` — how the rows are put in columns.

## Main results

* `updateLayout_laidOut` — the rows are in the columns one after another.
* `updateLayout_seen` — the row at a point is the one that is drawn there.
-/

namespace Medit.IconView

open Rectangles

/-- The cells of a row. -/
inductive MooIconViewCell
  | pixbuf
  | text
deriving DecidableEq

/-- How the two cells are shown, the sizes they are set to, negative ones being unset, and those
they have for a row. -/
structure Cells (Row : Type) where
  pixbufShow : Bool
  textShow : Bool
  pixelIconSize : ℤ
  iconSize : Option (ℤ × ℤ)
  pixbufWidth : ℤ
  pixbufHeight : ℤ
  textHeight : ℤ
  pixbufSize : Row → ℕ × ℕ
  textSize : Row → ℕ × ℕ

/-- `Column`. An entry is the width of its text. -/
structure Column where
  first : ℕ
  index : ℕ
  width : ℕ
  offset : ℕ
  entries : List ℕ
deriving DecidableEq

/-- `Layout`. -/
structure Layout where
  numRows : ℕ
  width : ℕ
  height : ℕ
  rowHeight : ℕ
  pixbufWidth : ℕ
  pixbufHeight : ℕ
  textHeight : ℕ
  columns : List Column
deriving DecidableEq

/-- A layout without columns. -/
def Layout.empty : Layout := ⟨0, 0, 0, 0, 0, 0, 0, []⟩

variable {Row : Type} {cells : Cells Row} {rows rest : List Row} {row iter : Row} {l : Layout}
  {c d : Column} {columns cs : List Column} {ws : List ℕ} {R pw k off total : ℕ}
  {p q i n height : ℕ} {x y xoffset : ℤ}

/-! ## The columns -/

/-- `set_pixbuf_size`. -/
def setPixbufSize (width height : ℤ) : ℕ × ℕ :=
  if width.toNat = 0 ∨ height.toNat = 0 then (0, 0) else (width.toNat, height.toNat)

/-- `calculate_pixbuf_size`. -/
def Cells.calculatePixbufSize (cells : Cells Row) (iter : Row) : ℕ × ℕ :=
  if cells.pixbufShow = false then setPixbufSize 0 0
  else if 0 ≤ cells.pixelIconSize then setPixbufSize cells.pixelIconSize cells.pixelIconSize
  else
    match cells.iconSize with
    | some (width, height) => setPixbufSize width height
    | none =>
      if 0 ≤ cells.pixbufHeight ∧ 0 ≤ cells.pixbufWidth then
        setPixbufSize cells.pixbufWidth cells.pixbufHeight
      else setPixbufSize (cells.pixbufSize iter).1 (cells.pixbufSize iter).2

/-- `calculate_row_height`, the height of the text. -/
def Cells.calculateTextHeight (cells : Cells Row) (iter : Row) : ℕ :=
  if cells.textShow = false then 0
  else if 0 ≤ cells.textHeight then cells.textHeight.toNat
  else (cells.textSize iter).2

/-- The width of the text of a row, as `calculate_column_width` takes it. -/
def Cells.textWidth (cells : Cells Row) (useText : Bool) (iter : Row) : ℕ :=
  if useText then (cells.textSize iter).1 else 0

/-- `calculate_column_width`, from a row of the model with the rows after it: the entries, the
greatest width, and the rows after the column. -/
def Cells.calculateColumnWidth (cells : Cells Row) (maxNum : ℕ) (useText : Bool) (entries : List ℕ)
    (width : ℕ) (iter : Row) : List Row → List ℕ × ℕ × List Row
  | [] =>
    (entries ++ [cells.textWidth useText iter], max width (cells.textWidth useText iter), [])
  | next :: rest =>
    if entries.length + 1 = maxNum then
      (entries ++ [cells.textWidth useText iter], max width (cells.textWidth useText iter),
        next :: rest)
    else
      cells.calculateColumnWidth maxNum useText (entries ++ [cells.textWidth useText iter])
        (max width (cells.textWidth useText iter)) next rest

/-- The sizes that `moo_icon_view_update_layout` sets before it goes over the rows. -/
def Cells.sizes (cells : Cells Row) (height : ℕ) (iter : Row) : Layout :=
  let pixbuf := cells.calculatePixbufSize iter
  let textHeight := cells.calculateTextHeight iter
  let rowHeight := max pixbuf.2 textHeight
  let numRows := if 0 < rowHeight then max (height / rowHeight) 1 else 1
  ⟨numRows, 0, rowHeight * numRows, rowHeight, pixbuf.1, pixbuf.2, textHeight, []⟩

/-- A layout with a column more. -/
def Layout.append (l : Layout) (c : Column) : Layout :=
  { l with width := l.width + c.width, columns := l.columns ++ [c] }

/-- A number of rounds of `moo_icon_view_update_layout`, from a row on. -/
def Cells.addColumns (cells : Cells Row) : ℕ → Layout → ℕ → ℕ → Row → List Row → Layout
  | 0, l, _, _, _, _ => l
  | n + 1, l, index, first, iter, rest =>
    let (entries, width, rest) :=
      cells.calculateColumnWidth l.numRows (0 < l.textHeight) [] 0 iter rest
    let l := l.append ⟨first, index, width + l.pixbufWidth, l.width, entries⟩
    match rest with
    | [] => l
    | next :: rest => cells.addColumns n l (index + 1) (first + entries.length) next rest

/-- The layout that `moo_icon_view_update_layout` makes of the rows of a view of some height. -/
def updateLayout (cells : Cells Row) (height : ℕ) : List Row → Layout
  | [] => .empty
  | iter :: rest => cells.addColumns (rest.length + 1) (cells.sizes height iter) 0 0 iter rest

namespace Layout

/-! ## Rows and points -/

/-- `find_column_by_path`, with the index of the entry. -/
def findColumnByPath (l : Layout) (path : ℕ) : Option (Column × ℕ) :=
  (l.columns.find? fun c => c.first ≤ path && path < c.first + c.entries.length).map
    fun c => (c, path - c.first)

/-- `get_column_at_x`. -/
def getColumnAtX (l : Layout) (x : ℤ) : Option Column :=
  if x < 0 ∨ l.width ≤ x then none
  else l.columns.find? fun c => c.offset ≤ x && x < c.offset + c.width

/-- `column_get_path_at_xy`: the path, the cell, and the point in the cell. -/
def columnGetPathAtXy (l : Layout) (cells : Cells Row) (rows : List Row) (c : Column) (x y : ℤ) :
    Option (ℕ × MooIconViewCell × ℤ × ℤ) :=
  if ¬x < c.width then none
  else
    let index := y.tdiv l.rowHeight
    if index < 0 ∨ c.entries.length ≤ index then none
    else
      let path := index.toNat + c.first
      match rows[path]? with
      | none => none
      | some iter =>
        if x < l.pixbufWidth then some (path, .pixbuf, x, y - index * l.rowHeight)
        else if 0 < l.textHeight then
          if x < (cells.textSize iter).1 + l.pixbufWidth then
            some (path, .text, x - l.pixbufWidth, y - index * l.rowHeight)
          else none
        else none

/-- `_moo_icon_view_get_path_at_pos`. -/
def getPathAtPos (l : Layout) (cells : Cells Row) (rows : List Row) (xoffset x y : ℤ) :
    Option (ℕ × MooIconViewCell × ℤ × ℤ) :=
  (l.getColumnAtX (x + xoffset)).bind fun c =>
    l.columnGetPathAtXy cells rows c (x + xoffset - c.offset) y

/-- `get_cell_rect`. -/
def getCellRect (l : Layout) (cells : Cells Row) (rows : List Row) (c : Column) (index : ℕ) :
    Option (ℕ × Rect) :=
  rows[index + c.first]?.map fun iter =>
    (index + c.first,
      ⟨c.offset, index * l.rowHeight, l.pixbufWidth + cells.textWidth (0 < l.textHeight) iter,
        l.rowHeight⟩)

/-- `draw_column`: the rows that are drawn and their places in the view. -/
def drawColumn (l : Layout) (xoffset : ℤ) (c : Column) (clip : Rect) : List (ℕ × Rect) :=
  (c.entries.zipIdx).filterMap fun (entry, i) =>
    let rect : Rect := ⟨c.offset, i * l.rowHeight, l.pixbufWidth + entry, l.rowHeight⟩
    if (rect.inter clip).Solid then some (c.first + i, rect.shift (-xoffset)) else none

/-- What `moo_icon_view_draw` draws of the columns, for a damaged rectangle of the view. -/
def draw (l : Layout) (xoffset : ℤ) (clip : Rect) : List (ℕ × Rect) :=
  l.columns.flatMap fun c =>
    let rect : Rect := ⟨c.offset, 0, c.width, c.entries.length * l.rowHeight⟩
    let region := rect.inter (clip.shift xoffset)
    if region.Solid then l.drawColumn xoffset c region else []

/-- The place of a row in all columns. -/
def rowRect (l : Layout) (cells : Cells Row) (rows : List Row) (path : ℕ) : Option Rect :=
  (l.findColumnByPath path).bind fun (c, index) => (l.getCellRect cells rows c index).map (·.2)

/-- The cell at a point of the place of a row, and where it is in the cell. -/
def cellAt (l : Layout) (rect : Rect) (x y : ℤ) : MooIconViewCell × ℤ × ℤ :=
  if x - rect.x < l.pixbufWidth then (.pixbuf, x - rect.x, y - rect.y)
  else (.text, x - rect.x - l.pixbufWidth, y - rect.y)

theorem cellAt_shift (l : Layout) (r : Rect) :
    l.cellAt (r.shift (-xoffset)) x y = l.cellAt r (x + xoffset) y := by
  have hx : x - (r.x + -xoffset) = x + xoffset - r.x := by omega
  simp only [cellAt, Rect.shift, hx]

end Layout

/-! ## How the rows are put in columns -/

/-- The rows whose texts have these widths are in columns of `R` rows, the first of which has the
number `k` and is at `off`. All columns end at the last number. -/
inductive Tiled (R pw : ℕ) : ℕ → ℕ → List ℕ → List Column → ℕ → Prop
  | nil {k off : ℕ} : Tiled R pw k off [] [] off
  | cons {k off total : ℕ} {ws : List ℕ} {c : Column} {cs : List Column} (hne : ws ≠ [])
      (first : c.first = k * R) (index : c.index = k) (offset : c.offset = off)
      (entries : c.entries = ws.take R) (width : c.width = (ws.take R).foldl max 0 + pw)
      (rest : Tiled R pw (k + 1) (off + c.width) (ws.drop R) cs total) :
      Tiled R pw k off ws (c :: cs) total

theorem calculateColumnWidth_eq {maxNum width : ℕ} {useText : Bool} {entries : List ℕ}
    (h : entries.length < maxNum) :
    cells.calculateColumnWidth maxNum useText entries width iter rest =
      (entries ++ ((iter :: rest).map (cells.textWidth useText)).take (maxNum - entries.length),
        (((iter :: rest).map (cells.textWidth useText)).take (maxNum - entries.length)).foldl max
          width,
        (iter :: rest).drop (maxNum - entries.length)) := by
  induction rest generalizing entries width iter with
  | nil =>
    obtain ⟨m, hm⟩ : ∃ m, maxNum - entries.length = m + 1 := ⟨_, (Nat.succ_pred (by omega)).symm⟩
    simp [Cells.calculateColumnWidth, hm]
  | cons next rest ih =>
    obtain ⟨m, hm⟩ : ∃ m, maxNum - entries.length = m + 1 := ⟨_, (Nat.succ_pred (by omega)).symm⟩
    rw [Cells.calculateColumnWidth]
    split_ifs with heq
    · obtain rfl : m = 0 := by omega
      simp [hm]
    · have hlen : (entries ++ [cells.textWidth useText iter]).length < maxNum := by
        simp only [List.length_append, List.length_singleton]
        omega
      have hsub : maxNum - (entries ++ [cells.textWidth useText iter]).length = m := by
        simp only [List.length_append, List.length_singleton]
        omega
      rw [ih hlen, hsub, hm]
      simp

/-- The rows of a model are in the columns of a layout, as they are measured now. -/
structure LaidOut (cells : Cells Row) (rows : List Row) (l : Layout) : Prop where
  height : l.height = l.rowHeight * l.numRows
  numRows : rows ≠ [] → 0 < l.numRows
  rowHeight : l.rowHeight = 0 → l.pixbufWidth = 0 ∧ l.textHeight = 0
  tiled : Tiled l.numRows l.pixbufWidth 0 0 (rows.map (cells.textWidth (0 < l.textHeight)))
    l.columns l.width

theorem addColumns_tiled (n : ℕ) (l : Layout) (k first : ℕ) (iter : Row) (rest : List Row)
    (hn : rest.length < n) (hR : 0 < l.numRows) (hfirst : first = k * l.numRows) :
    ∃ cs total, cells.addColumns n l k first iter rest =
        { l with width := total, columns := l.columns ++ cs } ∧
      Tiled l.numRows l.pixbufWidth k l.width
        ((iter :: rest).map (cells.textWidth (0 < l.textHeight))) cs total := by
  induction n generalizing l k first iter rest with
  | zero => omega
  | succ n ih =>
    rw [Cells.addColumns, calculateColumnWidth_eq (by simpa using hR)]
    simp only [List.length_nil, Nat.sub_zero, List.nil_append]
    generalize hws : (iter :: rest).map (cells.textWidth (decide (0 < l.textHeight))) = ws
    have hne : ws ≠ [] := by
      subst hws
      simp
    generalize hc : (⟨first, k, (ws.take l.numRows).foldl max 0 + l.pixbufWidth, l.width,
      ws.take l.numRows⟩ : Column) = c
    have hcons : ∀ {cs total}, Tiled l.numRows l.pixbufWidth (k + 1) (l.width + c.width)
        (ws.drop l.numRows) cs total →
        Tiled l.numRows l.pixbufWidth k l.width ws (c :: cs) total := by
      subst hc
      exact fun h => .cons hne hfirst rfl rfl rfl rfl h
    cases hdrop : (iter :: rest).drop l.numRows with
    | nil =>
      refine ⟨[c], l.width + c.width, rfl, hcons ?_⟩
      rw [← hws, ← List.map_drop, hdrop]
      exact .nil
    | cons next rest' =>
      have hlength := congrArg List.length hdrop
      simp only [List.length_drop, List.length_cons] at hlength
      have hentries : (ws.take l.numRows).length = l.numRows := by
        rw [← hws]
        simp only [List.length_take, List.length_map, List.length_cons]
        omega
      obtain ⟨cs, total, heq, htiled⟩ := ih (l.append c) (k + 1)
        (first + (ws.take l.numRows).length) next rest' (by omega) hR
        (by rw [hentries, hfirst, Nat.add_mul, Nat.one_mul]; rfl)
      refine ⟨c :: cs, total, ?_, hcons ?_⟩
      · rw [show l.columns ++ c :: cs = (l.append c).columns ++ cs by simp [Layout.append]]
        exact heq
      · rw [← hws, ← List.map_drop, hdrop]
        exact htiled

theorem sizes_numRows (cells : Cells Row) (height : ℕ) (iter : Row) :
    0 < (cells.sizes height iter).numRows := by
  rw [Cells.sizes]
  dsimp only
  split_ifs <;> omega

theorem setPixbufSize_eq_zero (x y : ℤ) (h : (setPixbufSize x y).2 = 0) :
    (setPixbufSize x y).1 = 0 := by
  simp only [setPixbufSize] at h ⊢
  split_ifs at h ⊢ with hzero
  · rfl
  · exact absurd (Or.inr h) hzero

theorem calculatePixbufSize_eq (cells : Cells Row) (iter : Row) :
    ∃ x y, cells.calculatePixbufSize iter = setPixbufSize x y := by
  rw [Cells.calculatePixbufSize]
  split_ifs
  · exact ⟨_, _, rfl⟩
  · exact ⟨_, _, rfl⟩
  all_goals
    cases cells.iconSize <;> exact ⟨_, _, rfl⟩

/-- Rows without height are without width. -/
theorem sizes_rowHeight (cells : Cells Row) (height : ℕ) (iter : Row)
    (h : (cells.sizes height iter).rowHeight = 0) :
    (cells.sizes height iter).pixbufWidth = 0 ∧ (cells.sizes height iter).textHeight = 0 := by
  have h' : max (cells.calculatePixbufSize iter).2 (cells.calculateTextHeight iter) = 0 := h
  obtain ⟨x, y, heq⟩ := calculatePixbufSize_eq cells iter
  have hzero : (setPixbufSize x y).2 = 0 := by
    rw [← heq]
    omega
  refine ⟨?_, show cells.calculateTextHeight iter = 0 by omega⟩
  exact (congrArg Prod.fst heq).trans (setPixbufSize_eq_zero x y hzero)

/-- The rows are put in columns one after another. -/
theorem updateLayout_laidOut (cells : Cells Row) (height : ℕ) (rows : List Row) :
    LaidOut cells rows (updateLayout cells height rows) := by
  cases rows with
  | nil => exact ⟨rfl, by simp, fun _ => ⟨rfl, rfl⟩, .nil⟩
  | cons iter rest =>
    obtain ⟨cs, total, heq, htiled⟩ := addColumns_tiled (rest.length + 1) (cells.sizes height iter)
      0 0 iter rest (by omega) (sizes_numRows cells height iter) (by omega)
    rw [updateLayout, heq]
    exact ⟨rfl, fun _ => sizes_numRows cells height iter, sizes_rowHeight cells height iter, htiled⟩

namespace Tiled

variable {j j' : ℕ}

theorem le_total (h : Tiled R pw k off ws cs total) : off ≤ total := by
  induction h with
  | nil => exact le_rfl
  | cons _ _ _ _ _ _ _ ih => omega

/-- What is in a column, and where it is. -/
theorem get (h : Tiled R pw k off ws cs total) (hc : cs[j]? = some c) :
    c.index = k + j ∧ c.first = (k + j) * R ∧ c.entries = (ws.drop (j * R)).take R ∧
      c.width = c.entries.foldl max 0 + pw ∧ off ≤ c.offset ∧ c.offset + c.width ≤ total ∧
      j * R < ws.length := by
  induction h generalizing j with
  | nil => simp at hc
  | @cons k off total ws d cs hne first index offset entries width rest ih =>
    cases j with
    | zero =>
      obtain rfl : d = c := by simpa using hc
      have htotal := rest.le_total
      refine ⟨index, by simpa using first, by simpa using entries, ?_, offset.ge, by omega, ?_⟩
      · rw [entries, width]
      · have := List.length_pos_iff.2 hne
        omega
    | succ j =>
      obtain ⟨hindex, hfirst, hentries, hwidth, hoff, htotal, hlt⟩ := ih (by simpa using hc)
      have hj : (j + 1) * R = R + j * R := by rw [Nat.add_mul]; omega
      have hlength : R + j * R < ws.length := by
        simp only [List.length_drop] at hlt
        omega
      refine ⟨by omega, ?_, ?_, hwidth, by omega, htotal, by omega⟩
      · rw [hfirst]
        congr 1
        omega
      · rw [hentries, List.drop_drop, hj]

/-- Columns are beside each other. -/
theorem offset_le (h : Tiled R pw k off ws cs total) (hc : cs[j]? = some c) (hd : cs[j']? = some d)
    (hj : j < j') : c.offset + c.width ≤ d.offset := by
  induction h generalizing j j' with
  | nil => simp at hc
  | @cons k off total ws e cs hne first index offset entries width rest ih =>
    obtain ⟨j', rfl⟩ : ∃ m, j' = m + 1 := ⟨_, (Nat.succ_pred (by omega)).symm⟩
    cases j with
    | zero =>
      obtain rfl : e = c := by simpa using hc
      obtain ⟨-, -, -, -, hoff, -⟩ := rest.get (by simpa using hd)
      omega
    | succ j => exact ih (by simpa using hc) (by simpa using hd) (by omega)

theorem exists_get (h : Tiled R pw k off ws cs total) (hR : 0 < R) (hi : i < ws.length) :
    ∃ c, cs[i / R]? = some c := by
  induction h generalizing i with
  | nil => simp at hi
  | @cons k off total ws e cs hne first index offset entries width rest ih =>
    by_cases hlt : i < R
    · exact ⟨e, by simp [Nat.div_eq_of_lt hlt]⟩
    · have hdiv : i / R = (i - R) / R + 1 := Nat.div_eq_sub_div hR (by omega)
      obtain ⟨c, hc⟩ := ih (i := i - R) (by simp only [List.length_drop]; omega)
      exact ⟨c, by rwa [hdiv, List.getElem?_cons_succ]⟩

end Tiled

/-! ## The row at a point -/

theorem le_foldl_max_start (m : ℕ) : m ≤ ws.foldl max m := by
  induction ws generalizing m with
  | nil => exact le_rfl
  | cons a ws ih => exact (le_max_left _ _).trans (ih _)

theorem le_foldl_max (m : ℕ) (hw : i ∈ ws) : i ≤ ws.foldl max m := by
  induction ws generalizing m with
  | nil => simp at hw
  | cons a ws ih =>
    rcases List.mem_cons.1 hw with rfl | hw
    · exact (le_max_right _ _).trans (le_foldl_max_start _)
    · exact ih _ hw

theorem foldl_max_eq_zero (h : ∀ w ∈ ws, w = 0) : ws.foldl max 0 = 0 := by
  induction ws with
  | nil => rfl
  | cons w ws ih =>
    have hw : w = 0 := h w List.mem_cons_self
    rw [List.foldl_cons, hw]
    exact ih fun v hv => h v (List.mem_cons_of_mem _ hv)

theorem find?_eq_some_of_unique {α : Type*} {P : α → Bool} {as : List α} {a : α}
    (h : ∀ a ∈ as, ∀ b ∈ as, P a = true → P b = true → a = b) :
    as.find? P = some a ↔ a ∈ as ∧ P a = true := by
  constructor
  · intro hfind
    exact ⟨List.mem_of_find?_eq_some hfind, List.find?_some hfind⟩
  · rintro ⟨hmem, ha⟩
    cases hfind : as.find? P with
    | none => exact absurd ha (List.find?_eq_none.1 hfind a hmem)
    | some b =>
      have hb := List.find?_some hfind
      rw [h a hmem b (List.mem_of_find?_eq_some hfind) ha hb]

namespace LaidOut

/-- What is in a column. -/
theorem column (h : LaidOut cells rows l) (hc : c ∈ l.columns) :
    l.columns[c.index]? = some c ∧ c.first = c.index * l.numRows ∧
      c.entries = ((rows.drop c.first).take l.numRows).map (cells.textWidth (0 < l.textHeight)) ∧
      c.width = c.entries.foldl max 0 + l.pixbufWidth ∧ c.offset + c.width ≤ l.width ∧
      c.first < rows.length := by
  obtain ⟨j, hj⟩ := List.mem_iff_getElem?.1 hc
  obtain ⟨hindex, hfirst, hentries, hwidth, -, htotal, hlt⟩ := h.tiled.get hj
  rw [Nat.zero_add] at hindex hfirst
  subst hindex
  refine ⟨hj, hfirst, ?_, hwidth, htotal, by simpa [hfirst] using hlt⟩
  rw [hentries, hfirst, List.map_take, List.map_drop]

theorem offset_le (h : LaidOut cells rows l) (hc : c ∈ l.columns) (hd : d ∈ l.columns)
    (hindex : c.index < d.index) : c.offset + c.width ≤ d.offset :=
  h.tiled.offset_le (h.column hc).1 (h.column hd).1 hindex

theorem eq_of_index (h : LaidOut cells rows l) (hc : c ∈ l.columns) (hd : d ∈ l.columns)
    (hindex : c.index = d.index) : c = d := by
  have := (h.column hc).1
  rw [hindex, (h.column hd).1] at this
  exact (Option.some.inj this).symm

/-- The entries of a column are rows, and their cells are in the column. -/
theorem entry (h : LaidOut cells rows l) (hc : c ∈ l.columns) (hi : i < c.entries.length) :
    ∃ row, rows[c.first + i]? = some row ∧
      c.entries[i]? = some (cells.textWidth (0 < l.textHeight) row) ∧
      l.pixbufWidth + cells.textWidth (0 < l.textHeight) row ≤ c.width := by
  obtain ⟨-, -, hentries, hwidth, -⟩ := h.column hc
  have hlen : c.entries.length = min l.numRows (rows.length - c.first) := by simp [hentries]
  have hrow : rows[c.first + i]? = some rows[c.first + i] := List.getElem?_eq_getElem (by omega)
  have hget : c.entries[i]? = some (cells.textWidth (0 < l.textHeight) rows[c.first + i]) := by
    rw [hentries, List.getElem?_map, List.getElem?_take_of_lt (by omega), List.getElem?_drop, hrow]
    rfl
  have hle := le_foldl_max 0 (List.mem_of_getElem? hget)
  exact ⟨_, hrow, hget, by omega⟩

/-- Which rows are in a column. -/
theorem entries_length (h : LaidOut cells rows l) (hc : c ∈ l.columns) :
    c.entries.length = min l.numRows (rows.length - c.first) ∧ 0 < c.entries.length := by
  obtain ⟨-, -, hentries, -, -, hlt⟩ := h.column hc
  have hR := h.numRows (List.ne_nil_of_length_pos (by omega))
  have hlen : c.entries.length = min l.numRows (rows.length - c.first) := by simp [hentries]
  exact ⟨hlen, by omega⟩

theorem first_lt (h : LaidOut cells rows l) (hc : c ∈ l.columns) (hd : d ∈ l.columns)
    (hindex : c.index < d.index) : c.first + c.entries.length ≤ d.first := by
  have hlen := (h.entries_length hc).1
  have hmul : (c.index + 1) * l.numRows ≤ d.index * l.numRows := Nat.mul_le_mul_right _ hindex
  rw [(h.column hc).2.1, (h.column hd).2.1]
  rw [Nat.add_mul, Nat.one_mul] at hmul
  omega

/-- What columns before and after each other cannot both have, the search finds in the one column
that has it. -/
theorem find?_eq_some (h : LaidOut cells rows l) {P : Column → Bool}
    (hP : ∀ c ∈ l.columns, ∀ d ∈ l.columns, c.index < d.index → P c = true → P d = false) :
    l.columns.find? P = some c ↔ c ∈ l.columns ∧ P c = true := by
  refine find?_eq_some_of_unique fun c hc d hd hcP hdP => ?_
  rcases Nat.lt_trichotomy c.index d.index with hlt | heq | hlt
  · exact absurd hdP (by simp [hP c hc d hd hlt hcP])
  · exact h.eq_of_index hc hd heq
  · exact absurd hcP (by simp [hP d hd c hc hlt hdP])

theorem findColumnByPath_eq_some (h : LaidOut cells rows l) :
    l.findColumnByPath p = some (c, i) ↔
      c ∈ l.columns ∧ i < c.entries.length ∧ p = c.first + i := by
  have hone : ∀ c ∈ l.columns, ∀ d ∈ l.columns, c.index < d.index →
      (decide (c.first ≤ p) && decide (p < c.first + c.entries.length)) = true →
      (decide (d.first ≤ p) && decide (p < d.first + d.entries.length)) = false := by
    intro c hc d hd hlt hcp
    have := h.first_lt hc hd hlt
    simp only [Bool.and_eq_true, decide_eq_true_eq] at hcp
    simp only [Bool.and_eq_false_iff, decide_eq_false_iff_not]
    omega
  rw [Layout.findColumnByPath, Option.map_eq_some_iff]
  simp only [h.find?_eq_some hone, Bool.and_eq_true, decide_eq_true_eq, Prod.mk.injEq]
  constructor
  · rintro ⟨a, ⟨ha, hle, hlt⟩, rfl, rfl⟩
    exact ⟨ha, by omega, by omega⟩
  · rintro ⟨hc, hi, rfl⟩
    exact ⟨c, ⟨hc, by omega, by omega⟩, rfl, by omega⟩

theorem getColumnAtX_eq_some (h : LaidOut cells rows l) :
    l.getColumnAtX x = some c ↔ c ∈ l.columns ∧ c.offset ≤ x ∧ x < c.offset + c.width := by
  have hone : ∀ c ∈ l.columns, ∀ d ∈ l.columns, c.index < d.index →
      (decide ((c.offset : ℤ) ≤ x) && decide (x < c.offset + c.width)) = true →
      (decide ((d.offset : ℤ) ≤ x) && decide (x < d.offset + d.width)) = false := by
    intro c hc d hd hlt hcx
    have := h.offset_le hc hd hlt
    simp only [Bool.and_eq_true, decide_eq_true_eq] at hcx
    simp only [Bool.and_eq_false_iff, decide_eq_false_iff_not]
    omega
  rw [Layout.getColumnAtX]
  split_ifs with hout
  · refine iff_of_false (by simp) ?_
    rintro ⟨hc, hle, hlt⟩
    obtain ⟨-, -, -, -, htotal, -⟩ := h.column hc
    omega
  · simp only [h.find?_eq_some hone, Bool.and_eq_true, decide_eq_true_eq]

/-- Every row is in one of the columns. -/
theorem exists_column (h : LaidOut cells rows l) (hp : p < rows.length) :
    ∃ c i, l.findColumnByPath p = some (c, i) ∧ c.index = p / l.numRows ∧ i = p % l.numRows := by
  have hR := h.numRows (List.ne_nil_of_length_pos (by omega))
  obtain ⟨c, hget⟩ := h.tiled.exists_get hR (i := p) (by simpa using hp)
  have hc := List.mem_of_getElem? hget
  obtain ⟨hindex, -⟩ := h.tiled.get hget
  have hfirst := (h.column hc).2.1
  have hlen := (h.entries_length hc).1
  have hdiv := Nat.div_add_mod' p l.numRows
  have hmod := Nat.mod_lt p hR
  rw [Nat.zero_add] at hindex
  rw [hindex] at hfirst
  exact ⟨c, p % l.numRows, h.findColumnByPath_eq_some.2 ⟨hc, by omega, by omega⟩, hindex, rfl⟩

/-- Where a row is. -/
theorem rowRect_eq_some (h : LaidOut cells rows l) {r : Rect} :
    l.rowRect cells rows p = some r ↔ ∃ c ∈ l.columns, ∃ i < c.entries.length, p = c.first + i ∧
      ∃ row, rows[p]? = some row ∧
        r = ⟨c.offset, i * l.rowHeight, l.pixbufWidth + cells.textWidth (0 < l.textHeight) row,
          l.rowHeight⟩ := by
  rw [Layout.rowRect]
  simp only [Option.bind_eq_some_iff, Prod.exists, h.findColumnByPath_eq_some, Layout.getCellRect,
    Option.map_eq_some_iff]
  constructor
  · rintro ⟨c, i, ⟨hc, hi, rfl⟩, path, rect, ⟨row, hrow, heq⟩, rfl⟩
    obtain ⟨-, rfl⟩ := Prod.mk.inj heq
    exact ⟨c, hc, i, hi, rfl, row, by rwa [Nat.add_comm], rfl⟩
  · rintro ⟨c, hc, i, hi, rfl, row, hrow, rfl⟩
    exact ⟨c, i, ⟨hc, hi, rfl⟩, _, _, ⟨row, by rwa [Nat.add_comm], rfl⟩, rfl⟩

/-- Columns with a width have rows with a height. -/
theorem rowHeight_pos (h : LaidOut cells rows l) (hc : c ∈ l.columns) (hw : 0 < c.width) :
    0 < l.rowHeight := by
  by_contra hzero
  obtain ⟨hpixbuf, htext⟩ := h.rowHeight (by omega)
  obtain ⟨-, -, hentries, hwidth, -⟩ := h.column hc
  have hfold : c.entries.foldl max 0 = 0 := by
    refine foldl_max_eq_zero fun w hw => ?_
    rw [hentries] at hw
    obtain ⟨row, -, rfl⟩ := List.mem_map.1 hw
    simp [Cells.textWidth, htext]
  omega

/-- The entry of a column at a height. -/
theorem columnGetPathAtXy_eq_some (h : LaidOut cells rows l) (hc : c ∈ l.columns) (hx : 0 ≤ x)
    (hlt : x < c.width) (hy : 0 ≤ y) {hit : MooIconViewCell × ℤ × ℤ} :
    l.columnGetPathAtXy cells rows c x y = some (p, hit) ↔ ∃ i < c.entries.length,
      p = c.first + i ∧ ∃ row, rows[p]? = some row ∧
        x < l.pixbufWidth + cells.textWidth (0 < l.textHeight) row ∧
        (i * l.rowHeight ≤ y ∧ y < i * l.rowHeight + l.rowHeight) ∧
        hit = if x < l.pixbufWidth then (.pixbuf, x, y - i * l.rowHeight)
          else (.text, x - l.pixbufWidth, y - i * l.rowHeight) := by
  have hrow := h.rowHeight_pos hc (by omega)
  obtain ⟨q, hq⟩ := Int.eq_ofNat_of_zero_le (Int.ediv_nonneg hy (b := (l.rowHeight : ℤ)) (by omega))
  have hunique : ∀ i : ℕ,
      i * (l.rowHeight : ℤ) ≤ y ∧ y < i * l.rowHeight + l.rowHeight ↔ q = i := by
    intro i
    rw [← Int.ediv_eq_iff_of_pos (by omega), hq]
    omega
  rw [Layout.columnGetPathAtXy, if_neg (by simpa using hlt), Int.tdiv_eq_ediv_of_nonneg hy, hq]
  simp only [hunique, Int.toNat_natCast]
  by_cases hlen : c.entries.length ≤ q
  · rw [if_pos (by omega)]
    refine iff_of_false (by simp) ?_
    rintro ⟨i, hi, -, row, -, -, rfl, -⟩
    omega
  obtain ⟨row, hrow', -, hwidth⟩ := h.entry hc (i := q) (by omega)
  rw [if_neg (by omega), Nat.add_comm, hrow']
  dsimp only
  constructor
  · intro heq
    refine ⟨q, by omega, ?_⟩
    split_ifs at heq with hpixbuf htext hin
    · obtain ⟨rfl, rfl⟩ := Prod.mk.inj (Option.some.inj heq)
      exact ⟨rfl, row, hrow', by omega, rfl, by rw [if_pos hpixbuf]⟩
    · obtain ⟨rfl, rfl⟩ := Prod.mk.inj (Option.some.inj heq)
      refine ⟨rfl, row, hrow', ?_, rfl, by rw [if_neg hpixbuf]⟩
      simp only [Cells.textWidth, htext, decide_true, if_true]
      omega
  · rintro ⟨i, hi, rfl, row', hrow'', hin, rfl, rfl⟩
    obtain rfl : row = row' := Option.some.inj (hrow'.symm.trans hrow'')
    by_cases hpixbuf : x < l.pixbufWidth
    · rw [if_pos hpixbuf, if_pos hpixbuf]
    · by_cases htext : 0 < l.textHeight
      · simp only [Cells.textWidth, htext, decide_true, if_true] at hin
        rw [if_neg hpixbuf, if_neg hpixbuf, if_pos htext, if_pos (by omega)]
      · simp only [Cells.textWidth, htext, decide_false, Bool.false_eq_true, if_false] at hin
        omega

/-- The row at a point is the one that has the point in its place. -/
theorem getPathAtPos_eq_some (h : LaidOut cells rows l) (hy : 0 ≤ y)
    {hit : MooIconViewCell × ℤ × ℤ} :
    l.getPathAtPos cells rows xoffset x y = some (p, hit) ↔ ∃ r, l.rowRect cells rows p = some r ∧
      r.Has (x + xoffset) y ∧ hit = l.cellAt r (x + xoffset) y := by
  rw [Layout.getPathAtPos, Option.bind_eq_some_iff]
  simp only [h.getColumnAtX_eq_some, h.rowRect_eq_some]
  constructor
  · rintro ⟨c, ⟨hc, hle, hlt⟩, heq⟩
    obtain ⟨i, hi, hp, row, hrow, hin, hat, rfl⟩ :=
      (h.columnGetPathAtXy_eq_some hc (by omega) (by omega) hy).1 heq
    exact ⟨_, ⟨c, hc, i, hi, hp, row, hrow, rfl⟩, ⟨⟨hle, by dsimp only; omega⟩, hat⟩, rfl⟩
  · rintro ⟨_, ⟨c, hc, i, hi, rfl, row, hrow, rfl⟩, ⟨⟨hle, hin⟩, hat⟩, rfl⟩
    dsimp only at hle hin hat
    obtain ⟨row', hrow', -, hwidth⟩ := h.entry hc hi
    obtain rfl : row' = row := Option.some.inj (hrow'.symm.trans hrow)
    refine ⟨c, ⟨hc, hle, by omega⟩, ?_⟩
    exact (h.columnGetPathAtXy_eq_some hc (by omega) (by omega) hy).2
      ⟨i, hi, rfl, row', hrow, by omega, hat, rfl⟩

/-! ## What is drawn -/

/-- What is drawn is at the places of the rows. -/
theorem rowRect_of_mem_draw (h : LaidOut cells rows l) {clip r : Rect}
    (hr : (p, r) ∈ l.draw xoffset clip) :
    ∃ r', l.rowRect cells rows p = some r' ∧ r = r'.shift (-xoffset) := by
  simp only [Layout.draw, Layout.drawColumn, List.mem_flatMap] at hr
  obtain ⟨c, hc, hr⟩ := hr
  split_ifs at hr with hregion
  · obtain ⟨⟨entry, i⟩, hentry, heq⟩ := List.mem_filterMap.1 hr
    rw [List.mem_zipIdx_iff_getElem?] at hentry
    obtain ⟨hi, -⟩ := List.getElem?_eq_some_iff.1 hentry
    obtain ⟨row, hrow, hget, -⟩ := h.entry hc hi
    obtain rfl : cells.textWidth (0 < l.textHeight) row = entry :=
      Option.some.inj (hget.symm.trans hentry)
    dsimp only at heq
    split_ifs at heq
    obtain ⟨rfl, rfl⟩ := Prod.mk.inj (Option.some.inj heq)
    exact ⟨_, h.rowRect_eq_some.2 ⟨c, hc, i, hi, rfl, row, hrow, rfl⟩, rfl⟩
  · simp at hr

/-- What has a damaged point in its place is drawn. -/
theorem mem_draw (h : LaidOut cells rows l) {clip r : Rect} (hclip : clip.Has x y)
    (hr : l.rowRect cells rows p = some r) (hat : r.Has (x + xoffset) y) :
    (p, r.shift (-xoffset)) ∈ l.draw xoffset clip := by
  obtain ⟨c, hc, i, hi, rfl, row, hrow, rfl⟩ := h.rowRect_eq_some.1 hr
  obtain ⟨row', hrow', hget, hwidth⟩ := h.entry hc hi
  obtain rfl : row' = row := Option.some.inj (hrow'.symm.trans hrow)
  generalize hrect : (⟨c.offset, 0, c.width, c.entries.length * l.rowHeight⟩ : Rect) = rect
  have hin : rect.Has (x + xoffset) y := by
    subst hrect
    obtain ⟨⟨hle, hlt⟩, hle', hlt'⟩ := hat
    dsimp only at hle hlt hle' hlt'
    have hmul : (i + 1 : ℤ) * l.rowHeight ≤ c.entries.length * l.rowHeight :=
      Int.mul_le_mul_of_nonneg_right (by omega) (by omega)
    rw [Int.add_mul, Int.one_mul] at hmul
    have hpos : (0 : ℤ) ≤ i * l.rowHeight := Int.mul_nonneg (by omega) (by omega)
    exact ⟨⟨hle, by dsimp only; omega⟩, by dsimp only; omega, by dsimp only; omega⟩
  have hregion : (rect.inter (clip.shift xoffset)).Has (x + xoffset) y :=
    Rect.has_inter.2 ⟨hin, Rect.has_shift.2 (by rwa [Int.add_sub_cancel])⟩
  simp only [Layout.draw, Layout.drawColumn, List.mem_flatMap]
  refine ⟨c, hc, ?_⟩
  rw [hrect, if_pos hregion.solid]
  refine List.mem_filterMap.2 ⟨(cells.textWidth (0 < l.textHeight) row', i),
    List.mem_zipIdx_iff_getElem?.2 hget, ?_⟩
  dsimp only
  rw [if_pos (Rect.has_inter.2 ⟨hat, hregion⟩).solid]

/-- Every row has its place, as high and as far to the right as the layout. -/
theorem exists_rowRect (h : LaidOut cells rows l) (hp : p < rows.length) :
    ∃ r, l.rowRect cells rows p = some r ∧ (0 ≤ r.x ∧ r.x + r.width ≤ l.width) ∧
      0 ≤ r.y ∧ r.y + r.height ≤ l.height := by
  obtain ⟨c, i, hfind, -, rfl⟩ := h.exists_column hp
  obtain ⟨hc, hi, heq⟩ := h.findColumnByPath_eq_some.1 hfind
  obtain ⟨row, hrow, -, hwidth⟩ := h.entry hc hi
  obtain ⟨-, -, -, -, htotal, -⟩ := h.column hc
  have hlen := (h.entries_length hc).1
  have hmul : (p % l.numRows + 1) * l.rowHeight ≤ l.numRows * l.rowHeight :=
    Nat.mul_le_mul_right _ (by omega)
  rw [Nat.add_mul, Nat.one_mul, Nat.mul_comm l.numRows, ← h.height] at hmul
  rw [← heq] at hrow
  refine ⟨_, h.rowRect_eq_some.2 ⟨c, hc, _, hi, heq, row, hrow, rfl⟩, ⟨?_, ?_⟩, ?_, ?_⟩
  · exact Int.natCast_nonneg _
  · dsimp only
    omega
  · exact Int.mul_nonneg (by omega) (by omega)
  · dsimp only
    exact_mod_cast hmul

end LaidOut

/-- In a layout of the rows as they are, the row at a point is the one that is drawn there, with
the point in the cell that is drawn there. Every row has its place in the layout. -/
theorem updateLayout_seen (cells : Cells Row) (height : ℕ) (rows : List Row) (xoffset : ℤ)
    (clip : Rect) (hy : 0 ≤ y) (hclip : clip.Has x y) (p : ℕ) (hit : MooIconViewCell × ℤ × ℤ) :
    ((updateLayout cells height rows).getPathAtPos cells rows xoffset x y = some (p, hit) ↔
      ∃ r, (p, r) ∈ (updateLayout cells height rows).draw xoffset clip ∧ r.Has x y ∧
        hit = (updateLayout cells height rows).cellAt r x y) ∧
    (p < rows.length → ∃ r, (updateLayout cells height rows).rowRect cells rows p = some r ∧
      (0 ≤ r.x ∧ r.x + r.width ≤ (updateLayout cells height rows).width) ∧
      0 ≤ r.y ∧ r.y + r.height ≤ (updateLayout cells height rows).height) := by
  have h := updateLayout_laidOut cells height rows
  generalize updateLayout cells height rows = l at h ⊢
  refine ⟨?_, fun hp => h.exists_rowRect hp⟩
  rw [h.getPathAtPos_eq_some hy]
  constructor
  · rintro ⟨r, hr, hat, rfl⟩
    exact ⟨_, h.mem_draw hclip hr hat, Rect.has_shift.2 (by rwa [Int.sub_neg]),
      (Layout.cellAt_shift l r).symm⟩
  · rintro ⟨r, hr, hat, rfl⟩
    obtain ⟨r, hr', rfl⟩ := h.rowRect_of_mem_draw hr
    rw [Rect.has_shift, Int.sub_neg] at hat
    exact ⟨r, hr', hat, Layout.cellAt_shift l r⟩

/-- Icons of 16 by 16 with texts that are 20 high. -/
def icons : Cells ℕ where
  pixbufShow := true
  textShow := true
  pixelIconSize := 16
  iconSize := none
  pixbufWidth := -1
  pixbufHeight := -1
  textHeight := -1
  pixbufSize _ := (0, 0)
  textSize row := (row, 20)

theorem updateLayout_seen_icons :
    ∃ r, (2, r) ∈ (updateLayout icons 45 [30, 50, 10]).draw 0 ⟨0, 0, 100, 45⟩ ∧ r.Has 70 5 ∧
      (.pixbuf, 4, 5) = (updateLayout icons 45 [30, 50, 10]).cellAt r 70 5 :=
  (updateLayout_seen icons 45 [30, 50, 10] 0 ⟨0, 0, 100, 45⟩ (by decide) (by decide) 2
    (.pixbuf, 4, 5)).1.1 (by decide)

end Medit.IconView
