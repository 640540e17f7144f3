import Medit.Library.Utf8
import Medit.Lsp.Edits
import Medit.Lsp.PositionUnits

/-!
# Completion

The items of a completion reply, the ones that are shown, and what choosing one does to the buffer.
What a word is made of and the folding of case are GLib's and are parameters.

## Main definitions

* `LspCompletionItem.new`, `parseItems` — the items of a reply.
* `Popup.start`, `Popup.reply` — the request and the list that is shown.
* `Popup.insertSelected` — the choice of an item.

## Main results

* `insertSelected_eq_iff` — when this is the edit that the item asks for.
-/

namespace Medit

open Paragraphs CString

/-- `LSP_COMPLETION_MAX_ITEMS` -/
def lspCompletionMaxItems : ℕ := 200

/-- What is shown besides the label is left out. -/
structure LspCompletionItem where
  label : List Char
  text : List Char
  filter : List Char
  sort : Option (List Char)
  range : Option ((ℤ × ℤ) × (ℤ × ℤ))
  deriving DecidableEq

/-! ## Items -/

/-- `g_strstrip` -/
def strstrip (s : List Char) : List Char :=
  let space (c : Char) : Bool :=
    c == ' ' || c == '\t' || c == '\n' || c == Char.ofNat 12 || c == '\r'
  ((s.dropWhile space).reverse.dropWhile space).reverse

/-- The range of a `textEdit`. -/
def textEditRange (edit : Json.Object) : Option ((ℤ × ℤ) × (ℤ × ℤ)) :=
  ((Json.getObject edit "range").or (Json.getObject edit "replace")).bind Json.getRange

/-- One item of `parse_items`, if it has a label. -/
def LspCompletionItem.new (object : Json.Object) : Option LspCompletionItem := do
  let label ← (Json.getString object "label").filter (· ≠ [])
  let edit := Json.getObject object "textEdit"
  let text := ((edit.bind (Json.getString · "newText")).or
    (Json.getString object "insertText")).getD (strstrip label)
  some
    { label := strstrip label
      text := text
      filter := (Json.getString object "filterText").getD (strstrip label)
      sort := Json.getString object "sortText"
      range := edit.bind textEditRange }

/-- `compare_items` -/
def compareItems (a b : LspCompletionItem) : ℤ :=
  strcmp (Utf8.encode (a.sort.getD a.label)) (Utf8.encode (b.sort.getD b.label))

/-- The array of a reply. -/
def itemArray : Option Json → Option (List Json)
  | some (.array array) => some array
  | some (.object object) => Json.getArray object "items"
  | _ => none

/-- `parse_items` -/
def parseItems (result : Option Json) : List LspCompletionItem :=
  let nodes := ((itemArray result).getD []).take lspCompletionMaxItems
  (nodes.filterMap fun node =>
    match node with
    | .object object => LspCompletionItem.new object
    | _ => none).mergeSort fun a b => compareItems a b ≤ 0

/-! ## The list that is shown -/

section Popup

variable (isAlnum : Char → Bool) (casefold : List Char → List Char)

/-- `lsp_completion_word_start`, from an iterator. -/
def lspCompletionWordStart (buffer : List Sym) : ℕ → ℕ
  | 0 => 0
  | iter + 1 =>
    match buffer[iter]? with
    | some (.char c _) =>
      if isAlnum c || c == '_' then lspCompletionWordStart buffer iter else iter + 1
    | _ => iter + 1

/-- The buffer with its cursor, and what `popup` remembers of it. -/
structure Popup where
  buffer : List Sym
  cursor : ℕ
  startMark : ℕ
  items : List LspCompletionItem
  store : List LspCompletionItem

/-- `lsp_completion_start` -/
def Popup.start (buffer : List Sym) (cursor : ℕ) : Popup where
  buffer := buffer
  cursor := cursor
  startMark := lspCompletionWordStart isAlnum buffer cursor
  items := []
  store := []

namespace Popup

/-- `current_prefix` -/
def currentPrefix (popup : Popup) : List Char :=
  text ((popup.buffer.take popup.cursor).drop popup.startMark)

/-- `refilter`: the rows of the store are the items that are shown. -/
def refilter (popup : Popup) : Popup :=
  { popup with
    store := popup.items.filter fun item => popup.currentPrefix == [] ||
      (casefold popup.currentPrefix).isPrefixOf (casefold item.filter) }

/-- `completion_reply` -/
def reply (popup : Popup) (result : Option Json) : Popup :=
  { popup with items := parseItems result }.refilter casefold

/-- `insert_selected`, with a row of the store. -/
def insertSelected (popup : Popup) (item : LspCompletionItem) : List Sym :=
  insert (delete popup.buffer popup.startMark popup.cursor) (min popup.startMark popup.cursor)
    item.text

end Popup

variable {isAlnum : Char → Bool} {casefold : List Char → List Char} {buffer : List Sym}

/-! ## The range of an item -/

theorem lspCompletionWordStart_le (iter : ℕ) :
    lspCompletionWordStart isAlnum buffer iter ≤ iter := by
  induction iter with
  | zero => exact le_rfl
  | succ iter ih =>
    unfold lspCompletionWordStart
    split
    · split_ifs
      · exact Nat.le_succ_of_le ih
      · exact le_rfl
    · exact le_rfl

/-- A number of units that is not above the one in front of the cursor leads in front of it, and one
that is not below behind it. -/
theorem positionToIter_around (encoding : LspPositionEncoding) {cursor : ℕ}
    (hcursor : cursor ≤ buffer.length) (number : ℤ) :
    ∃ i ≤ buffer.length,
      positionToIter encoding buffer ⟨(iterToPosition encoding buffer cursor).line, number⟩ =
        some i ∧
      (number ≤ (iterToPosition encoding buffer cursor).character → i ≤ cursor) ∧
      ((iterToPosition encoding buffer cursor).character ≤ number → cursor ≤ i) := by
  have hline := line_iterToPosition encoding buffer cursor
  obtain ⟨i, hi, heq, hiline, hbefore, hend⟩ := positionToIter_units encoding buffer
    ((List.take_sublist cursor buffer).countP_le (p := Sym.isEol)) number
  rw [← hline] at heq hiline hbefore
  refine ⟨i, hi, heq, fun hle => ?_, fun hle => ?_⟩
  · by_contra hlt
    have := hbefore cursor (not_le.1 hlt) rfl
    omega
  · by_contra hlt
    have hless := @iterToPosition_lt encoding _ _ _ (not_le.1 hlt) hcursor
    rw [Position.lt_iff] at hless
    rcases hend with hnumber | heol
    · omega
    · obtain ⟨s, hs⟩ : ∃ s, buffer[i]? = some s :=
        ⟨_, List.getElem?_eq_getElem ((not_le.1 hlt).trans_le hcursor)⟩
      have := line_lt_of_isEol encoding hs (heol s hs) (not_le.1 hlt)
      omega

/-- A shown item is read from an object of the reply. -/
theorem mem_store {popup : Popup} {result : Option Json} {item : LspCompletionItem}
    (h : item ∈ (popup.reply casefold result).store) :
    ∃ object, Json.object object ∈ (itemArray result).getD [] ∧
      LspCompletionItem.new object = some item := by
  obtain ⟨hitems, -⟩ := List.mem_filter.1 h
  rw [parseItems, List.mem_mergeSort, List.mem_filterMap] at hitems
  obtain ⟨node, hnode, hnew⟩ := hitems
  cases node with
  | object object => exact ⟨object, List.mem_of_mem_take hnode, hnew⟩
  | _ => simp at hnew

/-- The text of a buffer with a part of it replaced. -/
theorem text_insert_delete {i j : ℕ} (hij : i ≤ j) (hj : j ≤ buffer.length) (t : List Char) :
    text (insert (delete buffer i j) i t) =
      text (buffer.take i) ++ (t ++ text (buffer.drop j)) := by
  have hlen : (buffer.take i).length = i := List.length_take_of_le (hij.trans hj)
  rw [delete, min_eq_left hij, max_eq_right hij, Paragraphs.insert, List.take_left' hlen,
    List.drop_left' hlen, text_append, text_append, text_paragraphs]

/-- Two replacements of the same text: the ones of `[i, j)` and of `[k, l)`, all on both sides of an
iterator that is in both ranges. -/
theorem text_replace_eq_iff {i j k l : ℕ} (hij : i ≤ j) (hk : k ≤ j) (hl : j ≤ l)
    (hlen : l ≤ buffer.length) (t : List Char) :
    text (buffer.take i) ++ (t ++ text (buffer.drop j)) =
      text (buffer.take k) ++ (t ++ text (buffer.drop l)) ↔
    (k = i ∧ l = j) ∨ (i < k ∧
      text ((buffer.take k).drop i) ++ t = t ++ text ((buffer.take l).drop j)) := by
  have hdrop : text (buffer.drop j) = text ((buffer.take l).drop j) ++ text (buffer.drop l) := by
    rw [← text_append, ← List.drop_append_of_le_length (by simp; omega), List.take_append_drop]
  have hsize {a b : ℕ} (hab : a ≤ b) (hb : b ≤ buffer.length) :
      text ((buffer.take b).drop a) = [] ↔ a = b := by
    rw [text_eq_nil, List.drop_eq_nil_iff, List.length_take_of_le hb]
    omega
  rcases le_or_gt k i with hki | hik
  · rw [text_take_append hki, hdrop, List.append_assoc, List.append_cancel_left_eq]
    constructor
    · intro h
      have hlength := congrArg List.length h
      simp only [List.length_append] at hlength
      refine .inl ⟨(hsize hki (by omega)).1 (List.length_eq_zero_iff.1 (by omega)), ?_⟩
      exact ((hsize hl hlen).1 (List.length_eq_zero_iff.1 (by omega))).symm
    · rintro (⟨rfl, rfl⟩ | ⟨hlt, -⟩)
      · rw [(hsize le_rfl (by omega)).2 rfl, (hsize le_rfl hlen).2 rfl]
        rfl
      · omega
  · rw [text_take_append hik.le, hdrop, List.append_assoc, List.append_cancel_left_eq,
      ← List.append_assoc, ← List.append_assoc, List.append_cancel_right_eq]
    constructor
    · exact fun h => .inr ⟨hik, h.symm⟩
    · rintro (⟨rfl, -⟩ | ⟨-, h⟩)
      · omega
      · exact h.symm

/-- Choosing a shown item with a `textEdit` whose range is on the line of the cursor and has the
cursor in it is this edit exactly if its range goes from the start of the word to the cursor, or if
the text that is replaced instead makes up for the difference. -/
theorem insertSelected_eq_iff (encoding : LspPositionEncoding) (isAlnum : Char → Bool)
    (casefold : List Char → List Char) (buffer : List Sym) (cursor : Fin (buffer.length + 1))
    (result : Option Json) (item : LspCompletionItem)
    (hitem : item ∈ (((Popup.start isAlnum buffer cursor).reply casefold) result).store) :
    ∃ object, Json.object object ∈ (itemArray result).getD [] ∧
      LspCompletionItem.new object = some item ∧
      ∀ edit newText first last, Json.getObject object "textEdit" = some edit →
        Json.getString edit "newText" = some newText →
        textEditRange edit = some (((iterToPosition encoding buffer cursor).line, first),
          ((iterToPosition encoding buffer cursor).line, last)) →
        first ≤ (iterToPosition encoding buffer cursor).character →
        (iterToPosition encoding buffer cursor).character ≤ last →
        ∃ start stop,
          positionToIter encoding buffer ⟨(iterToPosition encoding buffer cursor).line, first⟩ =
            some start ∧
          positionToIter encoding buffer ⟨(iterToPosition encoding buffer cursor).line, last⟩ =
            some stop ∧
          (text ((((Popup.start isAlnum buffer cursor).reply casefold) result).insertSelected
              item) =
            text (buffer.take start) ++ (newText ++ text (buffer.drop stop)) ↔
          (start = lspCompletionWordStart isAlnum buffer cursor ∧ stop = cursor) ∨
            (lspCompletionWordStart isAlnum buffer cursor < start ∧
              text ((buffer.take start).drop (lspCompletionWordStart isAlnum buffer cursor)) ++
                newText = newText ++ text ((buffer.take stop).drop cursor))) := by
  obtain ⟨object, hmem, hnew⟩ := mem_store hitem
  refine ⟨object, hmem, hnew, fun edit newText first last hedit htext hrange hfirst hlast => ?_⟩
  have hcursor : cursor.val ≤ buffer.length := Nat.le_of_lt_succ cursor.isLt
  obtain ⟨start, -, hstart, hle, -⟩ := positionToIter_around encoding hcursor first
  obtain ⟨stop, hlen, hstop, -, hge⟩ := positionToIter_around encoding hcursor last
  have hword := @lspCompletionWordStart_le isAlnum buffer cursor
  have hitemText : item.text = newText := by
    simp only [LspCompletionItem.new, Option.bind_eq_bind, Option.bind_eq_some_iff] at hnew
    obtain ⟨label, -, hnew⟩ := hnew
    obtain rfl := Option.some.inj hnew
    simp [hedit, htext]
  refine ⟨start, stop, hstart, hstop, ?_⟩
  have hinsert : text ((((Popup.start isAlnum buffer cursor).reply casefold) result).insertSelected
      item) = text (buffer.take (lspCompletionWordStart isAlnum buffer cursor)) ++
        (newText ++ text (buffer.drop cursor)) := by
    rw [← text_insert_delete hword hcursor, ← hitemText]
    simp only [Popup.insertSelected, Popup.reply, Popup.refilter, Popup.start, min_eq_left hword]
  rw [hinsert]
  exact text_replace_eq_iff hword (hle hfirst) (hge hlast) hlen newText

/-! ## On a line -/

/-- An object with a `textEdit` on the first line. -/
def lineObject (label newText : List Char) (first last : ℤ) : Json.Object :=
  [("label", .string label), ("textEdit", .object
    [("newText", .string newText), ("range", .object
      [("start", .object [("line", .int 0), ("character", .int first)]),
        ("end", .object [("line", .int 0), ("character", .int last)])])])]

/-- The list that is shown behind a line, for the reply with this object. -/
def linePopup (line : String) (object : Json.Object) : Popup :=
  ((Popup.start Char.isAlphanum (paragraphs line.toList) (paragraphs line.toList).length).reply
    (List.map Char.toLower)) (some (.array [.object object]))

theorem parseItems_single (object : Json.Object) :
    parseItems (some (.array [.object object])) = (LspCompletionItem.new object).toList := by
  cases h : LspCompletionItem.new object <;>
    simp [parseItems, itemArray, lspCompletionMaxItems, h]

theorem mem_linePopup {line : String} {object : Json.Object} {item : LspCompletionItem}
    (hnew : LspCompletionItem.new object = some item)
    (hmatch : ((linePopup line object).currentPrefix.map Char.toLower).isPrefixOf
      (item.filter.map Char.toLower) = true) : item ∈ (linePopup line object).store := by
  refine List.mem_filter.2 ⟨?_, Bool.or_eq_true_iff.2 (.inr hmatch)⟩
  show item ∈ parseItems (some (.array [.object object]))
  simp [parseItems_single, hnew]

/-- The whole of the identifier in front of the cursor. -/
theorem insertSelected_identifier : ∃ item ∈
    (linePopup "fo" (lineObject "foo".toList "foo".toList 0 2)).store,
    text ((linePopup "fo" (lineObject "foo".toList "foo".toList 0 2)).insertSelected item) =
      "foo".toList := by
  have hitem : ⟨"foo".toList, "foo".toList, "foo".toList, none, some ((0, 0), (0, 2))⟩ ∈
      (linePopup "fo" (lineObject "foo".toList "foo".toList 0 2)).store :=
    mem_linePopup (by decide) (by decide)
  refine ⟨_, hitem, ?_⟩
  obtain ⟨object, hobject, -, h⟩ := insertSelected_eq_iff .utf16 Char.isAlphanum
    (List.map Char.toLower) (paragraphs "fo".toList) ⟨2, by decide⟩ _ _ hitem
  obtain rfl : object = lineObject "foo".toList "foo".toList 0 2 := by
    simpa [itemArray] using hobject
  obtain ⟨start, stop, hstart, hstop, hiff⟩ := h _ "foo".toList 0 2 rfl rfl (by decide)
    (by decide) (by decide)
  obtain rfl : 0 = start := Option.some.inj (hstart ▸ by decide)
  obtain rfl : 2 = stop := Option.some.inj (hstop ▸ by decide)
  exact hiff.2 (.inl ⟨by decide, rfl⟩)

/-- The range begins with the `.` in front of the word, which stays in front of the `?.` that is put
in for it. -/
theorem insertSelected_optional_chain : ∃ item ∈
    (linePopup "x.fo" (lineObject "foo".toList "?.foo".toList 1 4)).store,
    item.text = "?.foo".toList ∧ item.range = some ((0, 1), (0, 4)) ∧
    iterToPosition .utf16 (paragraphs "x.fo".toList) 4 = ⟨0, 4⟩ ∧
    positionToIter .utf16 (paragraphs "x.fo".toList) ⟨0, 1⟩ = some 1 ∧
    positionToIter .utf16 (paragraphs "x.fo".toList) ⟨0, 4⟩ = some 4 ∧
    text ((linePopup "x.fo" (lineObject "foo".toList "?.foo".toList 1 4)).insertSelected item) =
      "x.?.foo".toList := by
  refine ⟨⟨"foo".toList, "?.foo".toList, "foo".toList, none, some ((0, 1), (0, 4))⟩,
    mem_linePopup (by decide) (by decide), ?_⟩
  decide

end Popup

end Medit
