import Medit.Lsp.EditsApply

/-!
# The edits in an answer

What a server writes when it answers with edits, and that these are the edits that are applied.

## Main definitions

* `DescribesEdit`, `DescribesWorkspace` — the JSON of an edit and of the edits of a workspace.

## Main results

* `edits_replace_all` — the edits of an answer replace their ranges all at once.
-/

namespace Medit

open CString Paragraphs TextEdits

/-! ## The protocol -/

/-- A member that is a number of the protocol, which goes up to `G_MAXINT`, with a fractional part
of zero or without one. -/
def DescribesNumber (object : Json.Object) (member : String) (n : ℤ) : Prop :=
  (object.lookup member = some (.int n) ∨ object.lookup member = some (.double (some n))) ∧
    0 ≤ n ∧ n ≤ gMaxInt

def DescribesPosition (object : Json.Object) (p : Position) : Prop :=
  DescribesNumber object "line" p.line ∧ DescribesNumber object "character" p.character

/-- A `TextEdit` for the file `path`. -/
def DescribesEdit (path : Path) (node : Json) (e : LspTextEdit) : Prop :=
  e.path = path ∧ ∃ object range start stop, node = .object object ∧
    object.lookup "range" = some (.object range) ∧ range.lookup "start" = some (.object start) ∧
    range.lookup "end" = some (.object stop) ∧ DescribesPosition start e.start ∧
    DescribesPosition stop e.stop ∧ object.lookup "newText" = some (.string e.newText)

section Workspace

variable (filePath : List Char → Option Path)

/-- A member of `changes`: the edits of a file. -/
def DescribesChange (member : String × Json) (edits : List LspTextEdit) : Prop :=
  ∃ nodes path, member.2 = .array nodes ∧
    lspPathFromUri filePath (some member.1.toList) = some path ∧
    List.Forall₂ (DescribesEdit path) nodes edits

/-- A `TextDocumentEdit`. -/
def DescribesDocumentChange (node : Json) (edits : List LspTextEdit) : Prop :=
  ∃ change document uri nodes path, node = .object change ∧ change.lookup "kind" = none ∧
    change.lookup "textDocument" = some (.object document) ∧
    document.lookup "uri" = some (.string uri) ∧
    lspPathFromUri filePath (some uri) = some path ∧
    change.lookup "edits" = some (.array nodes) ∧
    List.Forall₂ (DescribesEdit path) nodes edits

/-- A `WorkspaceEdit` with `changes`, with `documentChanges`, or with both: its edits in the order
of the answer. -/
structure DescribesWorkspace (object : Json.Object) (edits : List LspTextEdit) : Prop where
  exists_edits : ∃ changes documentChanges, edits = changes ++ documentChanges ∧
    (object.lookup "changes" = none ∧ changes = [] ∨
      ∃ members editss, object.lookup "changes" = some (.object members) ∧
        (members.map Prod.fst).Nodup ∧ List.Forall₂ (DescribesChange filePath) members editss ∧
        changes = editss.flatten) ∧
    (object.lookup "documentChanges" = none ∧ documentChanges = [] ∨
      ∃ nodes editss, object.lookup "documentChanges" = some (.array nodes) ∧
        List.Forall₂ (DescribesDocumentChange filePath) nodes editss ∧
        documentChanges = editss.flatten)

end Workspace

/-! ## Reading -/

variable {encoding : LspPositionEncoding} {filePath : List Char → Option Path}

theorem DescribesNumber.get {object : Json.Object} {member : String} {n : ℤ}
    (h : DescribesNumber object member n) : Json.getPositionNumber object member = some n := by
  obtain ⟨hnode, hlow, hhigh⟩ := h
  rcases hnode with hnode | hnode
  · simp [Json.getPositionNumber, Json.getNode, hnode, Int.not_lt.2 hlow, Int.not_lt.2 hhigh]
  · have hlow' : ¬ ((n : ℚ) < 0) := by exact_mod_cast Int.not_lt.2 hlow
    have hhigh' : ¬ ((n : ℚ) > gMaxInt) := by exact_mod_cast Int.not_lt.2 hhigh
    simp [Json.getPositionNumber, Json.getNode, hnode, hlow', hhigh']

theorem DescribesPosition.get {object : Json.Object} {p : Position}
    (h : DescribesPosition object p) :
    Json.getPosition object = some (p.line, p.character) := by
  simp [Json.getPosition, h.1.get, h.2.get]

/-- An edit with a range whose start is not behind its end is read. -/
theorem DescribesEdit.textEditNew {path : Path} {node : Json} {e : LspTextEdit}
    (h : DescribesEdit path node e) (hle : ¬ e.stop < e.start) :
    ∃ object, node = .object object ∧ textEditNew path object = some e := by
  obtain ⟨rfl, object, range, start, stop, rfl, hrange, hstart, hstop, hs, he, hnew⟩ := h
  refine ⟨object, rfl, ?_⟩
  have hs' := hs.get
  have he' := he.get
  obtain ⟨⟨-, hl, -⟩, -, hc, -⟩ := hs
  obtain ⟨⟨-, hl', -⟩, -, hc', -⟩ := he
  simp only [LspTextEdit.start, LspTextEdit.stop, Position.lt_iff] at hs' he' hl hc hl' hc' hle
  have hget : Json.getRange range =
      some ((e.startLine, e.startCharacter), (e.endLine, e.endCharacter)) := by
    simp only [Json.getRange, Json.getObject, Json.getNode, hstart, hstop, Option.bind_some, hs',
      he', Option.bind_eq_bind]
    exact if_neg (by omega)
  simp [Medit.textEditNew, Json.getObject, Json.getString, Json.getNode, hrange, hnew, hget]

theorem LspTextEdit.InText.not_lt {e : LspTextEdit} {buffer : List Sym}
    (h : e.InText encoding buffer) : ¬ e.stop < e.start := by
  obtain ⟨i, j, hij, hj, hstart, hstop⟩ := h
  intro hlt
  rcases Nat.lt_or_eq_of_le hij with hlt' | rfl
  · have hlt' := @iterToPosition_lt encoding _ _ _ hlt' hj
    rw [hstart, hstop] at hlt'
    rw [Position.lt_iff] at hlt hlt'
    omega
  · rw [← hstart, ← hstop, Position.lt_iff] at hlt
    omega

theorem editsOfArray_eq {path : Path} {nodes : List Json} {edits : List LspTextEdit}
    (h : List.Forall₂ (DescribesEdit path) nodes edits) (hle : ∀ e ∈ edits, ¬ e.stop < e.start)
    (l : List LspTextEdit) :
    editsOfArray l (some path) (some nodes) = edits.reverse ++ l := by
  rw [editsOfArray]
  induction h generalizing l with
  | nil => rfl
  | cons hnode _ ih =>
    obtain ⟨object, rfl, hnew⟩ := hnode.textEditNew (hle _ (by simp))
    rw [List.foldl_cons, ih fun e he => hle e (by simp [he])]
    simp [hnew]

theorem path_eq_of_describes {path : Path} {nodes : List Json} {edits : List LspTextEdit}
    (h : List.Forall₂ (DescribesEdit path) nodes edits) : ∀ e ∈ edits, e.path = path := by
  induction h with
  | nil => simp
  | cons hnode _ ih => exact List.forall_mem_cons.2 ⟨hnode.1, ih⟩

/-- A walk over parts that each put their edits in front. -/
theorem foldl_edits {β : Type*} {R : β → List LspTextEdit → Prop}
    {f : List LspTextEdit → β → List LspTextEdit} {parts : List β}
    {editss : List (List LspTextEdit)} (h : List.Forall₂ R parts editss)
    (hf : ∀ part ∈ parts, ∀ edits ∈ editss, R part edits → ∀ l, f l part = edits.reverse ++ l)
    (l : List LspTextEdit) : parts.foldl f l = editss.flatten.reverse ++ l := by
  induction h generalizing l with
  | nil => rfl
  | cons hpart _ ih =>
    rw [List.foldl_cons, hf _ (by simp) _ (by simp) hpart,
      ih fun part hmem edits hmem' => hf part (by simp [hmem]) edits (by simp [hmem'])]
    simp

/-- The members of an object have different names. -/
theorem lookup_of_mem {members : Json.Object} (h : (members.map Prod.fst).Nodup)
    {member : String × Json} (hmem : member ∈ members) :
    members.lookup member.1 = some member.2 := by
  induction members with
  | nil => simp at hmem
  | cons m members ih =>
    obtain ⟨name, node⟩ := m
    obtain ⟨hm, hnodup⟩ := List.nodup_cons.1 h
    rcases List.mem_cons.1 hmem with rfl | hin
    · simp
    · have hne : (member.1 == name) = false := by
        rw [beq_eq_false_iff_ne]
        rintro rfl
        exact hm (List.mem_map.2 ⟨member, hin, rfl⟩)
      rw [List.lookup_cons, hne, ih hnodup hin]

theorem lspWorkspaceEditParse_eq {object : Json.Object} {edits : List LspTextEdit}
    (h : DescribesWorkspace filePath object edits) (hle : ∀ e ∈ edits, ¬ e.stop < e.start) :
    lspWorkspaceEditParse filePath (some (.object object)) = sortEdits edits.reverse := by
  obtain ⟨changes, documentChanges, rfl, hchanges, hdocuments⟩ := h.exists_edits
  have hfirst : editsOfChanges filePath [] (Json.getObject object "changes") =
      changes.reverse := by
    rcases hchanges with ⟨hnone, rfl⟩ | ⟨members, editss, hsome, hnodup, hmembers, rfl⟩
    · simp [Json.getObject, Json.getNode, hnone, editsOfChanges]
    · simp only [Json.getObject, Json.getNode, hsome, editsOfChanges, List.foldl_map]
      rw [foldl_edits hmembers, List.append_nil]
      rintro member hmember edits hedits ⟨nodes, path, harray, hpath, hnodes⟩ l
      have hget : Json.getArray members member.1 = some nodes := by
        simp [Json.getArray, Json.getNode, lookup_of_mem hnodup hmember, harray]
      have hle' : ∀ e ∈ edits, ¬ e.stop < e.start := fun e he =>
        hle e (List.mem_append_left _ (List.mem_flatten_of_mem hedits he))
      rw [hpath, hget, editsOfArray_eq hnodes hle']
  have hsecond : editsOfDocumentChanges filePath changes.reverse
      (Json.getArray object "documentChanges") = (changes ++ documentChanges).reverse := by
    rcases hdocuments with ⟨hnone, rfl⟩ | ⟨nodes, editss, hsome, hnodes, rfl⟩
    · simp [Json.getArray, Json.getNode, hnone, editsOfDocumentChanges]
    · simp only [Json.getArray, Json.getNode, hsome, editsOfDocumentChanges]
      rw [foldl_edits hnodes, List.reverse_append]
      rintro _ - edits hedits
        ⟨change, document, uri, nodes, path, rfl, hkind, hdocument, huri, hpath, harray, hedit⟩ l
      have hle' : ∀ e ∈ edits, ¬ e.stop < e.start := fun e he =>
        hle e (List.mem_append_right _ (List.mem_flatten_of_mem hedits he))
      simp [editsOfDocumentChange, Json.has, Json.getNode, hkind, Json.lookupString,
        Json.getObject, hdocument, Json.getString, huri, hpath, Json.getArray, harray,
        editsOfArray_eq hedit hle']
  rw [lspWorkspaceEditParse, hfirst, hsecond]

/-! ## Results -/

/-- An edit as JSON. -/
def editNode (e : LspTextEdit) : Json :=
  .object [("range", .object [("start", .object (Json.position e.startLine e.startCharacter)),
    ("end", .object (Json.position e.endLine e.endCharacter))]), ("newText", .string e.newText)]

theorem describesEdit_editNode {e : LspTextEdit}
    (h : ∀ n ∈ [e.startLine, e.startCharacter, e.endLine, e.endCharacter], 0 ≤ n ∧ n ≤ gMaxInt) :
    DescribesEdit e.path (editNode e) e := by
  have hposition {line character : ℤ} (hl : 0 ≤ line ∧ line ≤ gMaxInt)
      (hc : 0 ≤ character ∧ character ≤ gMaxInt) :
      DescribesPosition (Json.position line character) ⟨line, character⟩ :=
    ⟨⟨.inl rfl, hl⟩, .inl rfl, hc⟩
  exact ⟨rfl, _, _, _, _, rfl, rfl, rfl, rfl, hposition (h _ (by simp)) (h _ (by simp)),
    hposition (h _ (by simp)) (h _ (by simp)), rfl⟩

/-- The edits of an answer replace their ranges of the text all at once: those of one file, and those
of several files in each of them, which is opened once. -/
theorem edits_replace_all (encoding : LspPositionEncoding) (filePath : List Char → Option Path) :
    (∀ path nodes edits buffer, List.Forall₂ (DescribesEdit path) nodes edits →
      Fits encoding buffer edits →
      text ((lspTextEditsParse (some (.array nodes)) (some path)).foldl
        (applyEdit encoding) buffer) =
        replaceAll (edits.map (·.span encoding buffer)) (text buffer)) ∧
    ∀ object edits editor, DescribesWorkspace filePath object edits →
      (∀ e ∈ edits, ∃ buffer, editor.docs e.path = some buffer ∧
        Fits encoding buffer (edits.filter (·.path = e.path))) →
      let editor' := lspTextEditsApply encoding
        (lspWorkspaceEditParse filePath (some (.object object))) editor
      (∀ path, (editor'.docs path).map text = (editor.docs path).map fun buffer =>
        replaceAll ((edits.filter (·.path = path)).map (·.span encoding buffer)) (text buffer)) ∧
      ∃ paths, editor'.opened = editor.opened ++ paths ∧ paths.Nodup ∧
        ∀ path, path ∈ paths ↔ ∃ e ∈ edits, e.path = path := by
  refine ⟨fun path nodes edits buffer hnodes hfits => ?_,
    fun object edits editor hobject hfits => ?_⟩
  · have hpath := path_eq_of_describes hnodes
    have hfilter : edits.filter (·.path = path) = edits :=
      List.filter_eq_self.2 fun e he => by simpa using hpath e he
    have hsorted : (sortEdits edits.reverse).filter (·.path = path) = sortEdits edits.reverse :=
      List.filter_eq_self.2 fun e he => by
        simpa using hpath e (List.mem_reverse.1 (mem_sortEdits.1 he))
    have hparse : lspTextEditsParse (some (.array nodes)) (some path) =
        sortEdits edits.reverse := by
      rw [lspTextEditsParse, editsOfArray_eq hnodes fun e he => (hfits.inText e he).not_lt,
        List.append_nil]
    have hone := text_foldl_sortEdits (by rwa [hfilter])
    rwa [hfilter, hsorted, ← hparse] at hone
  · have hle : ∀ e ∈ edits, ¬ e.stop < e.start := fun e he => by
      obtain ⟨buffer, -, hfit⟩ := hfits e he
      exact (hfit.inText e (List.mem_filter.2 ⟨he, by simp⟩)).not_lt
    have hgrouped := grouped_sortEdits edits.reverse
    rw [lspWorkspaceEditParse_eq hobject hle]
    refine ⟨fun path => ?_, ?_⟩
    · rw [lspTextEditsApply, docs_applyFiles hgrouped le_rfl, Option.map_map]
      cases hdoc : editor.docs path with
      | none => rfl
      | some buffer =>
        have hfit : Fits encoding buffer (edits.filter (·.path = path)) := by
          rcases (edits.filter (·.path = path)).eq_nil_or_concat with hnil | ⟨_, e, he⟩
          · rw [hnil]
            exact ⟨by simp, List.Pairwise.nil⟩
          · have hmem : e ∈ edits.filter (·.path = path) := by simp [he]
            obtain ⟨hedit, hpath⟩ := List.mem_filter.1 hmem
            obtain rfl : e.path = path := by simpa using hpath
            obtain ⟨buffer', hdoc', hfit⟩ := hfits e hedit
            rw [hdoc] at hdoc'
            rwa [Option.some.inj hdoc']
        simp [text_foldl_sortEdits hfit]
    · simpa [mem_sortEdits, lspTextEditsApply] using opened_applyFiles hgrouped le_rfl editor

/-- An insertion in front of a replacement, in one file and as the only file of a workspace. -/
theorem edits_replace_all_insertion :
    let edits : List LspTextEdit := [⟨[97], 0, 1, 0, 1, ['x']⟩, ⟨[97], 0, 1, 0, 2, ['y']⟩]
    let nodes := edits.map editNode
    let editor : Editor := ⟨fun _ => some (paragraphs ['a', 'b']), []⟩
    text ((lspTextEditsParse (some (.array nodes)) (some [97])).foldl
        (applyEdit .utf16) (paragraphs ['a', 'b'])) = ['a', 'x', 'y'] ∧
      ((lspTextEditsApply .utf16 (lspWorkspaceEditParse (fun _ => some [97])
        (some (.object [("changes", .object [("file:///a", .array nodes)])]))) editor).docs
          [97]).map text = some ['a', 'x', 'y'] := by
  intro edits nodes editor
  have hnodes : List.Forall₂ (DescribesEdit [97]) nodes edits :=
    .cons (describesEdit_editNode (by decide)) (.cons (describesEdit_editNode (by decide)) .nil)
  have hin : ∀ e ∈ edits, e.InText .utf16 (paragraphs ['a', 'b']) := by
    intro e he
    rcases List.mem_cons.1 he with rfl | he
    · exact ⟨1, 1, by decide⟩
    · obtain rfl := List.mem_singleton.1 he
      exact ⟨1, 2, by decide⟩
  have hfits : Fits .utf16 (paragraphs ['a', 'b']) edits := ⟨hin, by decide⟩
  have hobject : DescribesWorkspace (fun _ => some [97])
      [("changes", .object [("file:///a", .array nodes)])] edits :=
    ⟨edits, [], by simp, .inr ⟨_, [edits], rfl, by simp, 
      .cons ⟨nodes, [97], rfl, by decide, hnodes⟩ .nil,
      by simp⟩, .inl ⟨rfl, rfl⟩⟩
  have hall := edits_replace_all .utf16 fun _ => some [97]
  refine ⟨(hall.1 [97] nodes edits _ hnodes hfits).trans (by decide), ?_⟩
  refine ((hall.2 _ edits editor hobject fun e he => ⟨_, rfl, ?_⟩).1 [97]).trans (by decide)
  have hpath := path_eq_of_describes hnodes
  rwa [List.filter_eq_self.2 fun e' he' => by simpa using (hpath e' he').trans (hpath e he).symm]

end Medit
