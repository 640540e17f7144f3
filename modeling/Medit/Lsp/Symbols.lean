import Medit.Library.ForestRows
import Medit.Lsp.Json
import Medit.Lsp.Position

/-!
# The symbols of a document

Translation of `lsp-symbols.cpp`: the rows of the tree that a reply to `textDocument/documentSymbol`
is shown as. The translation of a text is a parameter.

## Main definitions

* `appendSymbol`, `fillDocumentSymbols`, `lspSymbolsFill` — the rows of a reply.
* `symbolRows` — the rows that there should be.
* `Rowless`, `NoOrphans` — which replies have no row below an object without one.

## Main results

* `lspSymbolsFill_eq_iff` — when the rows are the ones there should be.
-/

namespace Medit

open LinkedForest

/-! ## Rows -/

/-- A row of the tree. -/
structure SymbolRow where
  markup : List Char
  name : List Char
  line : ℤ
  character : ℤ
deriving DecidableEq

/-- The names in `lsp_symbol_kind_name`, from 1. -/
def symbolKindNames : List String :=
  ["file", "module", "namespace", "package", "class", "method", "property", "field", "constructor",
    "enum", "interface", "function", "variable", "constant", "string", "number", "boolean", "array",
    "object", "key", "null", "enum member", "struct", "event", "operator", "type parameter"]

/-- A `gint64` as an `int`. -/
def castInt (n : ℤ) : ℤ := n.bmod (2 ^ 32)

/-- A character in `g_markup_escape_text`. -/
def escapeChar (c : Char) : List Char :=
  match c with
  | '&' => "&amp;".toList
  | '<' => "&lt;".toList
  | '>' => "&gt;".toList
  | '\'' => "&#39;".toList
  | '"' => "&quot;".toList
  | c =>
    let n := c.toNat
    if n ∈ List.range' 1 8 ∨ n ∈ List.range' 0xb 2 ∨ n ∈ List.range' 0xe 18 ∨
        n ∈ List.range' 0x7f 6 ∨ n ∈ List.range' 0x86 26 then
      "&#x".toList ++ Nat.toDigits 16 n ++ [';']
    else [c]

/-- `g_markup_escape_text` -/
def markupEscapeText (text : List Char) : List Char := text.flatMap escapeChar

section Fill

variable (translate : String → List Char) (encoding : LspPositionEncoding)
  (buffer : List Paragraphs.Sym)

/-- `lsp_symbol_kind_name` -/
def lspSymbolKindName (kind : ℤ) : Option (List Char) :=
  if kind < 1 then none else symbolKindNames[kind.toNat - 1]?.map translate

/-- `make_markup` -/
def makeMarkup (name : List Char) (detail : Option (List Char)) (kind : ℤ) : List Char :=
  let extra := if detail.getD [] ≠ [] then detail else lspSymbolKindName translate kind
  if extra.getD [] = [] then markupEscapeText name
  else
    markupEscapeText name ++ " <span foreground=\"#888888\">".toList ++
      markupEscapeText (extra.getD []) ++ "</span>".toList

/-- The row of a symbol at a position. -/
def symbolRow (name : List Char) (detail : Option (List Char)) (kind : ℤ) (position : ℤ × ℤ) :
    SymbolRow :=
  let iter := (positionToIter encoding buffer ⟨position.1, position.2⟩).getD buffer.length
  { markup := makeMarkup translate name detail kind
    name
    line := (iterToPosition .utf32 buffer iter).line
    character := (iterToPosition .utf32 buffer iter).character }

/-- A `GtkTreeIter`: the path of its row, or nothing if it has not been set. -/
abbrev TreeIter := Option (List ℕ)

/-- `append_symbol` below `parent`, with what becomes of `iter`. An iterator that has not been set
is no parent. -/
def appendSymbol (store : Forest SymbolRow) (parent iter : TreeIter) (name : List Char)
    (detail : Option (List Char)) (kind : ℤ) (range : Option Json.Object) :
    Option (Forest SymbolRow × TreeIter) :=
  match range.bind fun range => (Json.getObject range "start").bind Json.getPosition with
  | none => some (store, iter)
  | some position =>
    parent.map fun path =>
      (store.appendAt path (.node (symbolRow translate encoding buffer name detail kind position)
          .nil .nil),
        some (path ++ [(store.kidsAt path).tops.length]))

/-- The range of a symbol in `fill_document_symbols`. -/
def symbolRange (object : Json.Object) : Option Json.Object :=
  if Json.has object "location" then
    (Json.getObject object "location").bind (Json.getObject · "range")
  else (Json.getObject object "selectionRange").or (Json.getObject object "range")

/-- A round of the loop in `fill_document_symbols`, with the call for the children. -/
def fillSymbol (below : TreeIter → Forest SymbolRow → List Json → Option (Forest SymbolRow))
    (parent : TreeIter) (store : Forest SymbolRow) : Json → Option (Forest SymbolRow)
  | .object object =>
    match Json.getString object "name" with
    | none => some store
    | some name =>
      let kind := castInt (Json.getInt object "kind" 0)
      if Json.has object "location" then
        (appendSymbol translate encoding buffer store parent none name
          (Json.getString object "containerName") kind (symbolRange object)).map (·.1)
      else
        (appendSymbol translate encoding buffer store parent none name
          (Json.getString object "detail") kind (symbolRange object)).bind fun (store, iter) =>
            below iter store ((Json.getArray object "children").getD [])
  | _ => some store

/-- `fill_document_symbols`, with the number of levels that are left to its limit. -/
def fillDocumentSymbols : ℕ → TreeIter → Forest SymbolRow → List Json → Option (Forest SymbolRow)
  | 0, _, store, _ => some store
  | left + 1, parent, store, array =>
    array.foldlM (fillSymbol translate encoding buffer (fillDocumentSymbols left) parent) store

/-- `lsp_symbols_fill`; the parent on top is `NULL`, and there are 33 levels. -/
def lspSymbolsFill (result : Option Json) : Option (Forest SymbolRow) :=
  match result with
  | some (.array array) => fillDocumentSymbols translate encoding buffer 33 (some []) .nil array
  | _ => some .nil

/-! ## The rows there should be -/

/-- The start position of an object. -/
def symbolStart (object : Json.Object) : Option (ℤ × ℤ) :=
  (symbolRange object).bind fun range => (Json.getObject range "start").bind Json.getPosition

/-- The objects inside of an object, which are none in a `SymbolInformation`. -/
def symbolChildren (object : Json.Object) : List Json :=
  if Json.has object "location" then [] else (Json.getArray object "children").getD []

/-- What is said of an object beside its name. -/
def symbolDetail (object : Json.Object) : Option (List Char) :=
  Json.getString object (if Json.has object "location" then "containerName" else "detail")

/-- A row for each object with a name and a start position below others of that kind. -/
def symbolRows : ℕ → List Json → Forest SymbolRow
  | 0, _ => .nil
  | left + 1, array =>
    array.foldr (fun node rest =>
      match node with
      | .object object =>
        match Json.getString object "name", symbolStart object with
        | some name, some position =>
          .node (symbolRow translate encoding buffer name (symbolDetail object)
              (castInt (Json.getInt object "kind" 0)) position)
            (symbolRows left (symbolChildren object)) rest
        | _, _ => rest
      | _ => rest) .nil

end Fill

/-- Neither the objects nor those inside of them have a name and a start position. -/
def Rowless : ℕ → List Json → Bool
  | 0, _ => true
  | left + 1, array =>
    array.all fun node =>
      match node with
      | .object object =>
        (Json.getString object "name").isNone ||
          (symbolStart object).isNone && Rowless left (symbolChildren object)
      | _ => true

/-- Inside of an object with a name but without a start position there is no such object. -/
def NoOrphans : ℕ → List Json → Bool
  | 0, _ => true
  | left + 1, array =>
    array.all fun node =>
      match node with
      | .object object =>
        (Json.getString object "name").isNone ||
          if (symbolStart object).isSome then NoOrphans left (symbolChildren object)
          else Rowless left (symbolChildren object)
      | _ => true

/-! ## A reply -/

section Rows

variable {translate : String → List Char} {encoding : LspPositionEncoding}
  {buffer : List Paragraphs.Sym} {left : ℕ} {node : Json} {array : List Json}

theorem symbolRows_cons (node : Json) (array : List Json) :
    symbolRows translate encoding buffer (left + 1) (node :: array) =
    (symbolRows translate encoding buffer (left + 1) [node]).append
      (symbolRows translate encoding buffer (left + 1) array) := by
  simp only [symbolRows, List.foldr_cons, List.foldr_nil]
  split
  · split <;> simp
  · simp

@[simp] theorem symbolRows_nil : symbolRows translate encoding buffer left [] = .nil := by
  cases left <;> rfl

@[simp] theorem rowless_nil : Rowless left [] = true := by
  cases left <;> rfl

@[simp] theorem noOrphans_nil : NoOrphans left [] = true := by
  cases left <;> rfl

theorem rowless_cons (node : Json) (array : List Json) : Rowless (left + 1) (node :: array) =
    (Rowless (left + 1) [node] && Rowless (left + 1) array) := by
  simp [Rowless]

theorem noOrphans_cons (node : Json) (array : List Json) : NoOrphans (left + 1) (node :: array) =
    (NoOrphans (left + 1) [node] && NoOrphans (left + 1) array) := by
  simp [NoOrphans]

theorem fillDocumentSymbols_cons (parent : TreeIter) (store : Forest SymbolRow) :
    fillDocumentSymbols translate encoding buffer (left + 1) parent store (node :: array) =
      (fillSymbol translate encoding buffer (fillDocumentSymbols translate encoding buffer left)
        parent store node).bind fun store =>
          fillDocumentSymbols translate encoding buffer (left + 1) parent store array := by
  simp only [fillDocumentSymbols, List.foldlM_cons]
  rfl

variable {store : Forest SymbolRow} {parent : TreeIter} {path : List ℕ} {name : List Char}
  {detail : Option (List Char)} {kind : ℤ} {object : Json.Object} {position : ℤ × ℤ}

theorem appendSymbol_of_none (hstart : symbolStart object = none) :
    appendSymbol translate encoding buffer store parent none name detail kind
      (symbolRange object) = some (store, none) := by
  rw [symbolStart] at hstart
  rw [appendSymbol, hstart]

theorem appendSymbol_unset (hstart : symbolStart object = some position) :
    appendSymbol translate encoding buffer store none none name detail kind
      (symbolRange object) = none := by
  rw [symbolStart] at hstart
  rw [appendSymbol, hstart]
  rfl

theorem appendSymbol_set (hstart : symbolStart object = some position) :
    appendSymbol translate encoding buffer store (some path) none name detail kind
      (symbolRange object) =
      some (store.appendAt path (.node (symbolRow translate encoding buffer name detail kind
        position) .nil .nil), some (path ++ [(store.kidsAt path).tops.length])) := by
  rw [symbolStart] at hstart
  rw [appendSymbol, hstart]
  rfl

/-- Nothing is put below an iterator that has not been set if there is nothing to put there. -/
theorem fillDocumentSymbols_unset (left : ℕ) (store : Forest SymbolRow) (array : List Json) :
    fillDocumentSymbols translate encoding buffer left none store array =
      if Rowless left array then some store else none := by
  induction left generalizing store array with
  | zero => rfl
  | succ left ih =>
    have hnode (store : Forest SymbolRow) (node : Json) :
        fillSymbol translate encoding buffer (fillDocumentSymbols translate encoding buffer left)
          none store node = if Rowless (left + 1) [node] then some store else none := by
      cases node with
      | object object =>
        cases hname : Json.getString object "name" with
        | none => simp [fillSymbol, Rowless, hname]
        | some name =>
          cases hstart : symbolStart object with
          | none =>
            by_cases hloc : Json.has object "location" <;>
              simp [fillSymbol, Rowless, symbolChildren, hname, hstart, hloc,
                appendSymbol_of_none hstart, ih]
          | some position => simp [fillSymbol, Rowless, hname, hstart, appendSymbol_unset hstart]
      | _ => simp [fillSymbol, Rowless]
    induction array generalizing store with
    | nil => rfl
    | cons node array iha =>
      rw [fillDocumentSymbols_cons, hnode, rowless_cons node array]
      cases Rowless (left + 1) [node] <;> simp [iha]

/-- What is put below a row that is there. -/
theorem fillDocumentSymbols_set (left : ℕ) (path : List ℕ) (store : Forest SymbolRow)
    (array : List Json) :
    fillDocumentSymbols translate encoding buffer left (some path) store array =
      if NoOrphans left array then
        some (store.appendAt path (symbolRows translate encoding buffer left array))
      else none := by
  induction left generalizing path store array with
  | zero => simp [fillDocumentSymbols, NoOrphans, symbolRows]
  | succ left ih =>
    have hnode (store : Forest SymbolRow) (node : Json) :
        fillSymbol translate encoding buffer (fillDocumentSymbols translate encoding buffer left)
          (some path) store node =
          if NoOrphans (left + 1) [node] then
            some (store.appendAt path (symbolRows translate encoding buffer (left + 1) [node]))
          else none := by
      cases node with
      | object object =>
        cases hname : Json.getString object "name" with
        | none => simp [fillSymbol, NoOrphans, symbolRows, hname]
        | some name =>
          cases hstart : symbolStart object with
          | none =>
            by_cases hloc : Json.has object "location" <;>
              simp [fillSymbol, NoOrphans, symbolRows, symbolChildren, hname, hstart, hloc,
                appendSymbol_of_none hstart, fillDocumentSymbols_unset]
          | some position =>
            by_cases hloc : Json.has object "location" <;>
              simp [fillSymbol, NoOrphans, symbolRows, symbolChildren, symbolDetail, hname, hstart,
                hloc, appendSymbol_set hstart, ih, Forest.appendAt_last]
      | _ => simp [fillSymbol, NoOrphans, symbolRows]
    induction array generalizing store with
    | nil => simp [fillDocumentSymbols, NoOrphans, symbolRows]
    | cons node array iha =>
      rw [fillDocumentSymbols_cons, hnode, noOrphans_cons node array, symbolRows_cons node array]
      cases NoOrphans (left + 1) [node] <;> simp [iha, Forest.appendAt_appendAt]

end Rows

/-- The rows of a reply are the ones there should be exactly if no object with a name and a start
position is inside of one with a name only. -/
theorem lspSymbolsFill_eq_iff (translate : String → List Char) (encoding : LspPositionEncoding)
    (buffer : List Paragraphs.Sym) (array : List Json) :
    lspSymbolsFill translate encoding buffer (some (.array array)) =
        some (symbolRows translate encoding buffer 33 array) ↔ NoOrphans 33 array := by
  rw [lspSymbolsFill, fillDocumentSymbols_set]
  cases NoOrphans 33 array <;> simp [Forest.appendAt]

/-- An object with a name only, and one inside of it that has a start position. -/
def orphan : List Json :=
  [.object [("name", .string ['a']), ("children", .array [.object [("name", .string ['b']),
    ("range", .object [("start", .object (Json.position 0 0))])]])]]

/-- The child is put below an iterator that has not been set. -/
theorem lspSymbolsFill_orphan :
    lspSymbolsFill String.toList .utf16 [] (some (.array orphan)) = none ∧
      lspSymbolsFill String.toList .utf16 [] (some (.array orphan)) ≠
        some (symbolRows String.toList .utf16 [] 33 orphan) := by
  decide

end Medit
