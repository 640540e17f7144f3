import Medit.Lsp.PositionUnits
import Medit.Lsp.Symbols
import Medit.TextBuffer.LineOps

/-!
# Diagnostics

Translation of `lsp-diagnostics.cpp`: the tags and the line marks by which a document shows the
diagnostics of a server. The ends of words are those of GTK and a parameter.

## Main definitions

* `lspDiagnosticsParse` — the diagnostics that a server publishes.
* `MarkedDoc` — a document with its tags and marks.
* `MarkedDoc.apply` — `lsp_diagnostics_apply`.
* `MarkedDoc.Shows` — the tags and marks of a document are those of a list of diagnostics.
* `Ranked` — no diagnostic of an unknown severity is taken for less than it is.

## Main results

* `MarkedDoc.apply_shows_iff` — when a document shows the diagnostics.
-/

namespace Medit

open Paragraphs

/-! ## Severities -/

/-- An entry of `severity_info`. -/
structure LspSeverityInfo where
  severity : ℤ
  tagName : String
  iconName : String

def severityInfo : List LspSeverityInfo :=
  [⟨1, "moo-lsp-error", "dialog-error"⟩, ⟨2, "moo-lsp-warning", "dialog-warning"⟩,
    ⟨3, "moo-lsp-information", "dialog-information"⟩, ⟨4, "moo-lsp-hint", "dialog-information"⟩]

/-- `get_severity_info` -/
def getSeverityInfo (severity : ℤ) : LspSeverityInfo :=
  (severityInfo.find? (·.severity = severity)).getD ⟨1, "moo-lsp-error", "dialog-error"⟩

/-! ## Parsing -/

/-- What is shown in a document of a `LspDiagnostic`. -/
structure LspDiagnostic where
  severity : ℤ
  startLine : ℤ
  startCharacter : ℤ
  endLine : ℤ
  endCharacter : ℤ
deriving DecidableEq

/-- A round of the loop in `lsp_diagnostics_parse`. -/
def lspDiagnosticParse : Json → Option LspDiagnostic
  | .object object =>
    match Json.getString object "message", (Json.getObject object "range").bind Json.getRange with
    | some _, some ((startLine, startCharacter), (endLine, endCharacter)) =>
      some ⟨castInt (Json.getInt object "severity" 1), startLine, startCharacter, endLine,
        endCharacter⟩
    | _, _ => none
  | _ => none

/-- `lsp_diagnostics_parse` -/
def lspDiagnosticsParse (array : List Json) : List LspDiagnostic :=
  array.filterMap lspDiagnosticParse

/-! ## Documents -/

/-- A `MooLineMark` in a buffer. -/
structure IconMark where
  id : ℕ
  line : ℕ
  iconName : String
  /-- Whether it has been made by `add_marks`. -/
  diagnostic : Bool
deriving DecidableEq

/-- A document: its text, the characters under each tag, the marks in the buffer, the ones that are
remembered in `LSP_MARKS_QUARK`, and whether the margin is shown. -/
structure MarkedDoc where
  buffer : List Sym
  tags : String → ℕ → Bool
  marks : List IconMark
  lspMarks : List ℕ
  showLineMarks : Bool
  /-- The number of the next mark. -/
  next : ℕ

/-- The order in which a hash table goes over the lines that have been put into it. -/
structure LineOrder where
  order : List (ℤ × LspDiagnostic) → List (ℤ × LspDiagnostic)
  perm (table : List (ℤ × LspDiagnostic)) : (order table).Perm table

/-- `gtk_text_buffer_get_line_count` -/
def bufferLineCount (buffer : List Sym) : ℕ := buffer.countP Sym.isEol + 1

/-- A round of the first loop of `add_marks`, with the table of the worst diagnostics. -/
def worstInsert (lineCount : ℕ) (worst : List (ℤ × LspDiagnostic)) (d : LspDiagnostic) :
    List (ℤ × LspDiagnostic) :=
  if d.startLine < 0 ∨ lineCount ≤ d.startLine then worst
  else
    match worst.find? (·.1 = d.startLine) with
    | none => worst ++ [(d.startLine, d)]
    | some previous =>
      if d.severity < previous.2.severity then
        worst.map fun p => if p.1 = d.startLine then (d.startLine, d) else p
      else worst

namespace MarkedDoc

/-- `remove_marks` -/
def removeMarks (doc : MarkedDoc) : MarkedDoc :=
  { doc with marks := doc.marks.filter (·.id ∉ doc.lspMarks), lspMarks := [] }

/-- `remove_tags` -/
def removeTags (doc : MarkedDoc) : MarkedDoc :=
  { doc with
    tags := fun tag i =>
      if tag ∈ severityInfo.map (·.tagName) ∧ i < doc.buffer.length then false else doc.tags tag i }

/-- `lsp_diagnostics_clear` -/
def clear (doc : MarkedDoc) : MarkedDoc := doc.removeTags.removeMarks

/-- A round of the second loop of `add_marks`. -/
def addMark (doc : MarkedDoc) (entry : ℤ × LspDiagnostic) : MarkedDoc :=
  { doc with
    marks := doc.marks ++
      [⟨doc.next, entry.1.toNat, (getSeverityInfo entry.2.severity).iconName, true⟩]
    lspMarks := doc.next :: doc.lspMarks
    next := doc.next + 1 }

variable (order : LineOrder)

/-- `add_marks` -/
def addMarks (doc : MarkedDoc) (list : List LspDiagnostic) : MarkedDoc :=
  let worst := list.foldl (worstInsert (bufferLineCount doc.buffer)) []
  if worst = [] then doc
  else (order.order worst).foldl addMark { doc with lspMarks := [], showLineMarks := true }

variable (encoding : LspPositionEncoding) (forwardWordEnd : List Sym → ℕ → Option ℕ)

/-- The iterator that `lsp_position_to_iter` sets. -/
def positionIter (buffer : List Sym) (line character : ℤ) : ℕ :=
  (positionToIter encoding buffer ⟨line, character⟩).getD buffer.length

/-- The end of an empty range at an iterator that is not at the end of its line. -/
def widen (buffer : List Sym) (start : ℕ) : ℕ :=
  match forwardWordEnd buffer start with
  | some stop =>
    if SelectedText.line buffer stop ≠ SelectedText.line buffer start then
      SelectedText.lineEnd buffer start
    else stop
  | none => SelectedText.lineEnd buffer start

/-- The part of the text that is tagged for a diagnostic, from its start to its end. -/
def taggedRange (buffer : List Sym) (d : LspDiagnostic) : ℕ × ℕ :=
  let start := positionIter encoding buffer d.startLine d.startCharacter
  let stop := positionIter encoding buffer d.endLine d.endCharacter
  if start = stop ∧ toLineEnd (buffer.drop stop) ≠ 0 then (start, widen forwardWordEnd buffer start)
  else (start, stop)

/-- A round of the loop in `lsp_diagnostics_apply`. -/
def applyTag (doc : MarkedDoc) (d : LspDiagnostic) : MarkedDoc :=
  let range := taggedRange encoding forwardWordEnd doc.buffer d
  { doc with
    tags := fun tag i =>
      if tag = (getSeverityInfo d.severity).tagName ∧ range.1 ≤ i ∧ i < range.2 then true
      else doc.tags tag i }

/-- `lsp_diagnostics_apply` -/
def apply (doc : MarkedDoc) (list : List LspDiagnostic) : MarkedDoc :=
  if list = [] then doc.clear
  else (list.foldl (applyTag encoding forwardWordEnd) doc.clear).addMarks order list

/-! ## What is shown -/

/-- How bad a severity is, from an error to a hint; one that is not known is an error. -/
def rank (severity : ℤ) : ℤ :=
  if severity = 2 ∨ severity = 3 ∨ severity = 4 then severity else 1

/-- The diagnostic marks on a line. -/
def marksOn (doc : MarkedDoc) (line : ℕ) : List IconMark :=
  doc.marks.filter fun m => m.diagnostic ∧ m.line = line

/-- The diagnostic is as bad as any that starts on its line. -/
def IsWorst (list : List LspDiagnostic) (d : LspDiagnostic) : Prop :=
  ∀ d' ∈ list, d'.startLine = d.startLine → rank d.severity ≤ rank d'.severity

/-- The range of a diagnostic in the text: an empty one reaches to the end of the word or else of
the line, and never behind the line. -/
def Covers (buffer : List Sym) (d : LspDiagnostic) (i : ℕ) : Prop :=
  let start := positionIter encoding buffer d.startLine d.startCharacter
  let stop := positionIter encoding buffer d.endLine d.endCharacter
  start ≤ i ∧
    (i < stop ∨
      start = stop ∧ i < SelectedText.lineEnd buffer start ∧
        ∀ word ∈ forwardWordEnd buffer start,
          SelectedText.line buffer word = SelectedText.line buffer start → i < word)

/-- The document shows the diagnostics: one mark on each line where some start, with the icon of a
worst one of them, no other diagnostic marks, and the tags of the severities on the ranges. -/
structure Shows (doc : MarkedDoc) (list : List LspDiagnostic) : Prop where
  marked : ∀ d ∈ list, ∀ line : ℕ, d.startLine = line → line < bufferLineCount doc.buffer →
    ∃ m worst, doc.marksOn line = [m] ∧ worst ∈ list ∧ worst.startLine = line ∧
      IsWorst list worst ∧ m.iconName = (getSeverityInfo (rank worst.severity)).iconName
  unmarked : ∀ line : ℕ, (∀ d ∈ list, d.startLine ≠ line) ∨ bufferLineCount doc.buffer ≤ line →
    doc.marksOn line = []
  tagged : ∀ info ∈ severityInfo, ∀ i < doc.buffer.length, doc.tags info.tagName i ↔
    ∃ d ∈ list, rank d.severity = info.severity ∧
      Covers encoding forwardWordEnd doc.buffer d i

/-! ## Runs -/

/-- What happens to a document: its text changes, by which marks may get to other lines or be
deleted and tags be stretched or cut, and other marks come. -/
inductive Event
  | edit (buffer : List Sym) (tags : String → ℕ → Bool) (move : IconMark → Option ℕ)
  | addLineMark (line : ℕ) (iconName : String)
  | clear
  | apply (order : LineOrder) (encoding : LspPositionEncoding) (list : List LspDiagnostic)

def step (doc : MarkedDoc) : Event → MarkedDoc
  | .edit buffer tags move =>
    { doc with
      buffer, tags
      marks := doc.marks.filterMap fun m => (move m).map fun line => { m with line } }
  | .addLineMark line iconName =>
    { doc with marks := doc.marks ++ [⟨doc.next, line, iconName, false⟩], next := doc.next + 1 }
  | .clear => doc.clear
  | .apply order encoding list => doc.apply order encoding forwardWordEnd list

/-- A document without marks. -/
def start (buffer : List Sym) : MarkedDoc := ⟨buffer, fun _ _ => false, [], [], false, 0⟩

/-- The diagnostic marks are the ones that are remembered. -/
structure Remembers (doc : MarkedDoc) : Prop where
  iff : ∀ m ∈ doc.marks, m.diagnostic ↔ m.id ∈ doc.lspMarks
  lt : ∀ m ∈ doc.marks, m.id < doc.next
  lspMarks_lt : ∀ id ∈ doc.lspMarks, id < doc.next

end MarkedDoc

/-- No line of the text has an unknown severity on it and a known one that is taken to be worse:
where there is a number above 4, there is one below 2 or all of them are above 4. -/
def Ranked (lineCount : ℕ) (list : List LspDiagnostic) : Prop :=
  ∀ d ∈ list, 4 < d.severity → 0 ≤ d.startLine → d.startLine < lineCount →
    (∃ d' ∈ list, d'.startLine = d.startLine ∧ d'.severity < 2) ∨
      ∀ d' ∈ list, d'.startLine = d.startLine → 4 < d'.severity

namespace MarkedDoc

/-! ## Severities -/

theorem getSeverityInfo_rank (severity : ℤ) :
    getSeverityInfo (rank severity) = getSeverityInfo severity := by
  unfold rank
  split_ifs with h
  · rfl
  · by_cases h1 : severity = 1
    · rw [h1]
    · simp only [not_or] at h
      simp [getSeverityInfo, severityInfo, Ne.symm h1, Ne.symm h.1, Ne.symm h.2.1,
        Ne.symm h.2.2]

theorem rank_cases (severity : ℤ) :
    rank severity = 1 ∨ rank severity = 2 ∨ rank severity = 3 ∨ rank severity = 4 := by
  unfold rank
  split_ifs with h
  · exact .inr h
  · exact .inl rfl

theorem tagName_eq_iff {severity : ℤ} {info : LspSeverityInfo} (hinfo : info ∈ severityInfo) :
    info.tagName = (getSeverityInfo severity).tagName ↔ rank severity = info.severity := by
  rw [← getSeverityInfo_rank severity]
  simp only [severityInfo, List.mem_cons, List.not_mem_nil, or_false] at hinfo
  rcases hinfo with rfl | rfl | rfl | rfl <;>
    rcases rank_cases severity with h | h | h | h <;> rw [h] <;> decide

theorem rank_of_absent {object : Json.Object} {d : LspDiagnostic}
    (hd : lspDiagnosticParse (.object object) = some d)
    (habsent : Json.getNode object "severity" = none) : rank d.severity = 1 := by
  simp only [lspDiagnosticParse] at hd
  split at hd
  · obtain rfl := Option.some.inj hd
    simp only [Json.getInt, habsent]
    decide
  · cases hd

/-! ## The worst on each line -/

/-- The table has for each line of the text with diagnostics one of the least number. -/
structure WorstOf (lineCount : ℕ) (l : List LspDiagnostic) (worst : List (ℤ × LspDiagnostic)) :
    Prop where
  nodup : (worst.map (·.1)).Nodup
  least : ∀ p ∈ worst, p.2 ∈ l ∧ p.2.startLine = p.1 ∧ 0 ≤ p.1 ∧ p.1 < lineCount ∧
    ∀ d ∈ l, d.startLine = p.1 → p.2.severity ≤ d.severity
  lines : ∀ d ∈ l, 0 ≤ d.startLine → d.startLine < lineCount → d.startLine ∈ worst.map (·.1)

theorem WorstOf.least_append {lineCount : ℕ} {l : List LspDiagnostic}
    {worst : List (ℤ × LspDiagnostic)} (h : WorstOf lineCount l worst) {p : ℤ × LspDiagnostic}
    (hp : p ∈ worst) {d : LspDiagnostic} (hd : d.startLine = p.1 → p.2.severity ≤ d.severity) :
    p.2 ∈ l ++ [d] ∧ p.2.startLine = p.1 ∧ 0 ≤ p.1 ∧ p.1 < lineCount ∧
      ∀ d' ∈ l ++ [d], d'.startLine = p.1 → p.2.severity ≤ d'.severity := by
  obtain ⟨hmem, hstart, hnonneg, hlt, hle⟩ := h.least p hp
  refine ⟨List.mem_append_left _ hmem, hstart, hnonneg, hlt, fun d' hd' heq => ?_⟩
  rcases List.mem_append.1 hd' with hd' | hd'
  · exact hle d' hd' heq
  · rw [List.mem_singleton.1 hd'] at heq ⊢
    exact hd heq

theorem WorstOf.lines_append {lineCount : ℕ} {l : List LspDiagnostic}
    {worst worst' : List (ℤ × LspDiagnostic)} (h : WorstOf lineCount l worst)
    (hsub : worst.map (·.1) ⊆ worst'.map (·.1)) {d : LspDiagnostic}
    (hd : 0 ≤ d.startLine → d.startLine < lineCount → d.startLine ∈ worst'.map (·.1)) :
    ∀ d' ∈ l ++ [d], 0 ≤ d'.startLine → d'.startLine < lineCount →
      d'.startLine ∈ worst'.map (·.1) := by
  intro d' hd' hnonneg hlt
  rcases List.mem_append.1 hd' with hd' | hd'
  · exact hsub (h.lines d' hd' hnonneg hlt)
  · rw [List.mem_singleton.1 hd'] at hnonneg hlt ⊢
    exact hd hnonneg hlt

theorem WorstOf.insert {lineCount : ℕ} {l : List LspDiagnostic} {worst : List (ℤ × LspDiagnostic)}
    (h : WorstOf lineCount l worst) (d : LspDiagnostic) :
    WorstOf lineCount (l ++ [d]) (worstInsert lineCount worst d) := by
  unfold worstInsert
  split_ifs with hline
  · refine ⟨h.nodup, fun p hp => h.least_append hp fun heq => ?_,
      h.lines_append (List.Subset.refl _) fun hnonneg hlt => by omega⟩
    have := h.least p hp
    omega
  cases hfind : worst.find? (·.1 = d.startLine) with
  | none =>
    have hne : ∀ p ∈ worst, p.1 ≠ d.startLine := by simpa using hfind
    refine ⟨?_, fun p hp => ?_, h.lines_append ?_ fun _ _ => by simp⟩
    · rw [List.map_append, List.map_singleton]
      refine h.nodup.append (List.nodup_singleton _) ?_
      simpa [List.disjoint_singleton] using fun d' hd' => hne _ hd' rfl
    · rcases List.mem_append.1 hp with hp | hp
      · exact h.least_append hp fun heq => absurd heq.symm (hne p hp)
      · rw [List.mem_singleton.1 hp]
        refine ⟨by simp, rfl, by omega, by omega, fun d' hd' heq => ?_⟩
        rcases List.mem_append.1 hd' with hd' | hd'
        · obtain ⟨p', hp', hp'eq⟩ := List.mem_map.1 (h.lines d' hd' (by omega) (by omega))
          exact absurd (hp'eq.trans heq) (hne p' hp')
        · rw [List.mem_singleton.1 hd']
    · rw [List.map_append]
      exact List.subset_append_left _ _
  | some previous =>
    obtain ⟨hprevious, hmem⟩ : previous.1 = d.startLine ∧ previous ∈ worst :=
      ⟨by simpa using List.find?_some hfind, List.mem_of_find?_eq_some hfind⟩
    have honly : ∀ p ∈ worst, p.1 = d.startLine → p = previous := fun p hp heq =>
      List.inj_on_of_nodup_map h.nodup hp hmem (heq.trans hprevious.symm)
    have hkey : d.startLine ∈ worst.map (·.1) := hprevious ▸ List.mem_map_of_mem hmem
    simp only
    split_ifs with hlt
    · have hkeys : (worst.map fun p => if p.1 = d.startLine then (d.startLine, d) else p).map
          (·.1) = worst.map (·.1) := by
        rw [List.map_map]
        refine List.map_congr_left fun p _ => ?_
        simp only [Function.comp_apply]
        split_ifs with heq
        · exact heq.symm
        · rfl
      refine ⟨hkeys ▸ h.nodup, fun p hp => ?_, h.lines_append (by rw [hkeys]; exact fun _ => id)
        fun _ _ => by rwa [hkeys]⟩
      obtain ⟨p', hp', rfl⟩ := List.mem_map.1 hp
      split_ifs with heq
      · refine ⟨by simp, rfl, by omega, by omega, fun d' hd' hd'eq => ?_⟩
        rcases List.mem_append.1 hd' with hd' | hd'
        · exact hlt.le.trans
            ((h.least previous hmem).2.2.2.2 d' hd' (hd'eq.trans hprevious.symm))
        · rw [List.mem_singleton.1 hd']
      · exact h.least_append hp' fun hd' => absurd hd'.symm heq
    · refine ⟨h.nodup, fun p hp => h.least_append hp fun heq => ?_,
        h.lines_append (List.Subset.refl _) fun _ _ => hkey⟩
      rw [honly p hp heq.symm]
      omega

theorem WorstOf.perm {lineCount : ℕ} {l : List LspDiagnostic}
    {worst worst' : List (ℤ × LspDiagnostic)} (h : WorstOf lineCount l worst)
    (hperm : worst'.Perm worst) : WorstOf lineCount l worst' where
  nodup := (hperm.map _).nodup_iff.2 h.nodup
  least p hp := h.least p (hperm.mem_iff.1 hp)
  lines d hd hnonneg hlt := (hperm.map _).mem_iff.2 (h.lines d hd hnonneg hlt)

/-- The table that the first loop of `add_marks` makes. -/
theorem worstOf_foldl (lineCount : ℕ) (list : List LspDiagnostic) :
    WorstOf lineCount list (list.foldl (worstInsert lineCount) []) := by
  induction list using List.reverseRecOn with
  | nil => exact ⟨List.nodup_nil, nofun, nofun⟩
  | append_singleton l d ih =>
    rw [List.foldl_append]
    exact ih.insert d

/-! ## Marks -/

/-- The mark for an entry of the table. -/
def entryMark (id : ℕ) (entry : ℤ × LspDiagnostic) : IconMark :=
  ⟨id, entry.1.toNat, (getSeverityInfo entry.2.severity).iconName, true⟩

variable {order : LineOrder} {encoding : LspPositionEncoding}
  {forwardWordEnd : List Sym → ℕ → Option ℕ} {doc : MarkedDoc}

/-- What the second loop of `add_marks` does. -/
structure Added (doc doc' : MarkedDoc) (table : List (ℤ × LspDiagnostic)) : Prop where
  buffer : doc'.buffer = doc.buffer
  tags : doc'.tags = doc.tags
  next : doc.next ≤ doc'.next
  marks : ∃ ids, ids.length = table.length ∧ (∀ id ∈ ids, doc.next ≤ id ∧ id < doc'.next) ∧
    doc'.marks = doc.marks ++ List.zipWith entryMark ids table ∧
    ∀ id, id ∈ doc'.lspMarks ↔ id ∈ doc.lspMarks ∨ id ∈ ids

theorem added_foldl (table : List (ℤ × LspDiagnostic)) (doc : MarkedDoc) :
    Added doc (table.foldl addMark doc) table := by
  induction table generalizing doc with
  | nil => exact ⟨rfl, rfl, le_rfl, [], rfl, nofun, by simp, by simp⟩
  | cons entry table ih =>
    obtain ⟨hbuffer, htags, hnext, ids, hlength, hids, hmarks, hlsp⟩ := ih (doc.addMark entry)
    have hstep : (doc.addMark entry).next = doc.next + 1 := rfl
    rw [List.foldl_cons]
    refine ⟨hbuffer, htags, by omega, doc.next :: ids, by simp [hlength], ?_, ?_, fun id => ?_⟩
    · refine List.forall_mem_cons.2 ⟨⟨le_rfl, by omega⟩, fun id hid => ?_⟩
      have := hids id hid
      omega
    · rw [hmarks]
      simp [addMark, entryMark]
    · rw [hlsp]
      simp [addMark, or_assoc, or_comm, or_left_comm]

theorem mem_zipWith_entryMark {ids : List ℕ} {table : List (ℤ × LspDiagnostic)} {m : IconMark}
    (h : m ∈ List.zipWith entryMark ids table) :
    ∃ id ∈ ids, ∃ entry ∈ table, m = entryMark id entry := by
  induction ids generalizing table with
  | nil => simp at h
  | cons id ids ih =>
    cases table with
    | nil => simp at h
    | cons entry table =>
      rcases List.mem_cons.1 h with rfl | h
      · exact ⟨id, List.mem_cons_self, entry, List.mem_cons_self, rfl⟩
      · obtain ⟨id', hid', entry', hentry', rfl⟩ := ih h
        exact ⟨id', List.mem_cons_of_mem _ hid', entry', List.mem_cons_of_mem _ hentry', rfl⟩

theorem Remembers.clear (h : doc.Remembers) :
    doc.clear.Remembers ∧ (∀ m ∈ doc.clear.marks, m.diagnostic = false) ∧
      doc.clear.marks = doc.marks.filter (¬ ·.diagnostic) := by
  have hmarks : doc.clear.marks = doc.marks.filter (¬ ·.diagnostic) :=
    List.filter_congr fun m hm => by simp [removeTags, ← h.iff m hm]
  have hother : ∀ m ∈ doc.clear.marks, m.diagnostic = false := by
    simp [hmarks]
  refine ⟨⟨fun m hm => ?_, fun m hm => ?_, nofun⟩, hother, hmarks⟩
  · simp [hother m hm, MarkedDoc.clear, removeMarks]
  · exact h.lt m (List.mem_of_mem_filter (hmarks ▸ hm))

/-- What `add_marks` does where nothing is remembered. -/
theorem Remembers.addMarks (order : LineOrder) (h : doc.Remembers) (hnone : doc.lspMarks = [])
    (list : List LspDiagnostic) :
    (doc.addMarks order list).Remembers ∧ (doc.addMarks order list).buffer = doc.buffer ∧
      (doc.addMarks order list).tags = doc.tags ∧
      ∃ table ids, WorstOf (bufferLineCount doc.buffer) list table ∧ ids.length = table.length ∧
        (doc.addMarks order list).marks = doc.marks ++ List.zipWith entryMark ids table := by
  have hworst := worstOf_foldl (bufferLineCount doc.buffer) list
  unfold MarkedDoc.addMarks
  simp only
  split_ifs with hempty
  · rw [hempty] at hworst
    exact ⟨h, rfl, rfl, [], [], hworst, rfl, by simp⟩
  · set table := list.foldl (worstInsert (bufferLineCount doc.buffer)) []
    have hperm := order.perm table
    obtain ⟨hbuffer, htags, hnext, ids, hlength, hids, hmarks, hlsp⟩ :=
      added_foldl (order.order table) { doc with lspMarks := [], showLineMarks := true }
    have hlsp' (id : ℕ) : id ∈ ((order.order table).foldl addMark
        { doc with lspMarks := [], showLineMarks := true }).lspMarks ↔ id ∈ ids := by
      simp [hlsp]
    refine ⟨⟨fun m hm => ?_, fun m hm => ?_, fun id hid => (hids id ((hlsp' id).1 hid)).2⟩,
      hbuffer, htags, order.order table, ids, hworst.perm hperm, hlength, hmarks⟩
    · rw [hlsp']
      rcases List.mem_append.1 (hmarks ▸ hm) with hm | hm
      · have hother := h.iff m hm
        rw [hnone] at hother
        refine iff_of_false (by simpa using hother) fun hid => ?_
        have hfresh : doc.next ≤ m.id := (hids m.id hid).1
        have := h.lt m hm
        omega
      · obtain ⟨id, hid, entry, -, rfl⟩ := mem_zipWith_entryMark hm
        exact iff_of_true rfl hid
    · rcases List.mem_append.1 (hmarks ▸ hm) with hm | hm
      · exact (h.lt m hm).trans_le hnext
      · obtain ⟨id, hid, entry, -, rfl⟩ := mem_zipWith_entryMark hm
        exact (hids id hid).2

/-! ## Tags -/

/-- Behind an iterator and on its line is in front of the end of the line. -/
theorem lt_lineEnd {buffer : List Sym} {i j k : ℕ} (hij : i ≤ j) (hjk : j < k)
    (hj : j < buffer.length)
    (hline : SelectedText.line buffer k = SelectedText.line buffer i) :
    j < SelectedText.lineEnd buffer i := by
  have hsplit : SelectedText.line buffer k = SelectedText.line buffer i +
      ((buffer.drop i).take (k - i)).countP Sym.isEol := by
    rw [SelectedText.line, SelectedText.line, ← List.countP_append, ← List.take_add]
    congr 2
    omega
  have hnone : ∀ s ∈ (buffer.drop i).take (j + 1 - i), s.isEol = false := by
    have hzero : ((buffer.drop i).take (k - i)).countP Sym.isEol = 0 := by omega
    intro s hs
    have hmem : s ∈ (buffer.drop i).take (k - i) :=
      (List.take_prefix_take_left (by omega : j + 1 - i ≤ k - i)).subset hs
    simpa using List.countP_eq_zero.1 hzero s hmem
  have hle := length_le_toLineEnd hnone ((buffer.drop i).drop (j + 1 - i))
  rw [List.take_append_drop, List.length_take, List.length_drop] at hle
  rw [SelectedText.lineEnd]
  omega

/-- What is tagged for a diagnostic. -/
theorem taggedRange_iff {buffer : List Sym} {d : LspDiagnostic} {i : ℕ} (hi : i < buffer.length) :
    (taggedRange encoding forwardWordEnd buffer d).1 ≤ i ∧
        i < (taggedRange encoding forwardWordEnd buffer d).2 ↔
      Covers encoding forwardWordEnd buffer d i := by
  unfold taggedRange Covers
  set start := positionIter encoding buffer d.startLine d.startCharacter
  set stop := positionIter encoding buffer d.endLine d.endCharacter
  simp only
  by_cases heq : start = stop
  · simp only [← heq, true_and]
    split_ifs with hend
    · refine and_congr_right fun hle => ?_
      simp only [widen, not_lt.2 hle, false_or]
      cases hword : forwardWordEnd buffer start with
      | none => simp
      | some word =>
        simp only [Option.mem_some_iff, forall_eq']
        by_cases hline : SelectedText.line buffer word = SelectedText.line buffer start
        · rw [if_neg (not_not.2 hline)]
          exact ⟨fun hlt => ⟨lt_lineEnd hle hlt hi hline, fun _ => hlt⟩, fun h => h.2 hline⟩
        · rw [if_pos hline]
          exact ⟨fun hlt => ⟨hlt, fun h => absurd h hline⟩, fun h => h.1⟩
    · refine and_congr_right fun hle => ?_
      have hlineEnd : SelectedText.lineEnd buffer start = start := by
        rw [SelectedText.lineEnd, not_ne_iff.1 hend, add_zero]
      simp only [hlineEnd]
      omega
  · simp only [heq, false_and, or_false, if_false]

theorem tags_foldl_applyTag (list : List LspDiagnostic) (doc : MarkedDoc) (tag : String) (i : ℕ) :
    (list.foldl (applyTag encoding forwardWordEnd) doc).tags tag i = true ↔
      doc.tags tag i = true ∨ ∃ d ∈ list, tag = (getSeverityInfo d.severity).tagName ∧
        (taggedRange encoding forwardWordEnd doc.buffer d).1 ≤ i ∧
        i < (taggedRange encoding forwardWordEnd doc.buffer d).2 := by
  induction list generalizing doc with
  | nil => simp
  | cons d list ih =>
    rw [List.foldl_cons, ih]
    simp only [List.exists_mem_cons_iff, ← or_assoc]
    refine or_congr ?_ Iff.rfl
    simp only [applyTag]
    split_ifs with h
    · simp [h]
    · simp [h]

variable (encoding forwardWordEnd) in
theorem foldl_applyTag_rest (list : List LspDiagnostic) (doc : MarkedDoc) :
    (list.foldl (applyTag encoding forwardWordEnd) doc).buffer = doc.buffer ∧
      (list.foldl (applyTag encoding forwardWordEnd) doc).marks = doc.marks ∧
      (list.foldl (applyTag encoding forwardWordEnd) doc).lspMarks = doc.lspMarks ∧
      (list.foldl (applyTag encoding forwardWordEnd) doc).next = doc.next := by
  induction list generalizing doc with
  | nil => exact ⟨rfl, rfl, rfl, rfl⟩
  | cons d list ih => exact ih (doc.applyTag encoding forwardWordEnd d)

/-- No tag of a severity is left in the text. -/
theorem tags_clear {tag : String} (htag : tag ∈ severityInfo.map (·.tagName)) {i : ℕ}
    (hi : i < doc.buffer.length) : doc.clear.tags tag i = false :=
  if_pos ⟨htag, hi⟩

/-! ## A list of diagnostics -/

variable (order encoding forwardWordEnd) in
/-- What `lsp_diagnostics_apply` does to the document. -/
theorem Remembers.apply (h : doc.Remembers) (list : List LspDiagnostic) :
    (doc.apply order encoding forwardWordEnd list).Remembers ∧
      (doc.apply order encoding forwardWordEnd list).buffer = doc.buffer ∧
      (∀ tag i, (doc.apply order encoding forwardWordEnd list).tags tag i = true ↔
        doc.clear.tags tag i = true ∨ ∃ d ∈ list, tag = (getSeverityInfo d.severity).tagName ∧
          (taggedRange encoding forwardWordEnd doc.buffer d).1 ≤ i ∧
          i < (taggedRange encoding forwardWordEnd doc.buffer d).2) ∧
      ∃ table ids, WorstOf (bufferLineCount doc.buffer) list table ∧ ids.length = table.length ∧
        (doc.apply order encoding forwardWordEnd list).marks =
          doc.marks.filter (¬ ·.diagnostic) ++ List.zipWith entryMark ids table := by
  obtain ⟨hclear, -, hmarks⟩ := h.clear
  unfold MarkedDoc.apply
  split_ifs with hlist
  · subst hlist
    exact ⟨hclear, rfl, by simp, [], [], worstOf_foldl _ [], rfl, by simp [hmarks]⟩
  · set tagged := list.foldl (applyTag encoding forwardWordEnd) doc.clear
    obtain ⟨hbuffer, htmarks, htlsp, htnext⟩ :=
      foldl_applyTag_rest encoding forwardWordEnd list doc.clear
    have htagged : tagged.Remembers :=
      ⟨by rw [htmarks, htlsp]; exact hclear.iff, by rw [htmarks, htnext]; exact hclear.lt,
        by rw [htlsp, htnext]; exact hclear.lspMarks_lt⟩
    obtain ⟨hrem, hbuf, htags, table, ids, hworst, hlength, hadded⟩ :=
      htagged.addMarks order htlsp list
    refine ⟨hrem, hbuf.trans hbuffer, fun tag i => ?_, table, ids, ?_, hlength, ?_⟩
    · rw [htags, tags_foldl_applyTag]
      rfl
    · rwa [hbuffer] at hworst
    · rw [hadded, htmarks, hmarks]

theorem Remembers.step (h : doc.Remembers) (event : Event) :
    (doc.step forwardWordEnd event).Remembers := by
  cases event with
  | edit buffer tags move =>
    refine ⟨fun m hm => ?_, fun m hm => ?_, h.lspMarks_lt⟩
    all_goals
      obtain ⟨m', hm', hmove⟩ := List.mem_filterMap.1 hm
      obtain ⟨line, -, rfl⟩ := Option.map_eq_some_iff.1 hmove
    · exact h.iff m' hm'
    · exact h.lt m' hm'
  | addLineMark line iconName =>
    refine ⟨fun m hm => ?_, fun m hm => ?_,
      fun id hid => (h.lspMarks_lt id hid).trans_le (Nat.le_succ _)⟩
    all_goals rcases List.mem_append.1 hm with hm | hm
    · exact h.iff m hm
    · rw [List.mem_singleton.1 hm]
      refine iff_of_false (by simp) fun hid => ?_
      exact absurd (h.lspMarks_lt _ hid) (lt_irrefl _)
    · exact (h.lt m hm).trans_le (Nat.le_succ _)
    · rw [List.mem_singleton.1 hm]
      exact Nat.lt_succ_self _
  | clear => exact h.clear.1
  | apply order encoding list => exact (h.apply order encoding forwardWordEnd list).1

theorem remembers_start (buffer : List Sym) : (start buffer).Remembers := ⟨nofun, nofun, nofun⟩

theorem remembers_run (buffer : List Sym) (events : List Event) :
    (events.foldl (step forwardWordEnd) (start buffer)).Remembers := by
  induction events using List.reverseRecOn with
  | nil => exact remembers_start buffer
  | append_singleton events event ih =>
    rw [List.foldl_append]
    exact ih.step event

/-! ## The marks on a line -/

theorem filter_entryMarks {ids : List ℕ} {table : List (ℤ × LspDiagnostic)} (line : ℕ)
    (hlength : ids.length = table.length) (hnodup : (table.map (·.1)).Nodup)
    (hnonneg : ∀ p ∈ table, 0 ≤ p.1) :
    ((∀ p ∈ table, p.1 ≠ line) →
      (List.zipWith entryMark ids table).filter (fun m => m.diagnostic ∧ m.line = line) = []) ∧
    ∀ p ∈ table, p.1 = line → ∃ id,
      (List.zipWith entryMark ids table).filter (fun m => m.diagnostic ∧ m.line = line) =
        [entryMark id p] := by
  induction table generalizing ids with
  | nil => simp
  | cons entry table ih =>
    obtain ⟨id, ids, rfl⟩ := List.exists_cons_of_length_eq_add_one hlength
    obtain ⟨hnotin, hnodup⟩ := List.nodup_cons.1 hnodup
    obtain ⟨hentry, hnonneg⟩ := List.forall_mem_cons.1 hnonneg
    have hlength' : ids.length = table.length := by simpa using hlength
    obtain ⟨hnone, hsome⟩ := ih hlength' hnodup hnonneg
    have hline : entry.1.toNat = line ↔ entry.1 = line := by omega
    rw [List.zipWith_cons_cons]
    refine ⟨fun hne => ?_, fun p hp hpline => ?_⟩
    · obtain ⟨hne, hrest⟩ := List.forall_mem_cons.1 hne
      rw [List.filter_cons_of_neg (by simpa [entryMark, hline] using hne), hnone hrest]
    · rcases List.mem_cons.1 hp with rfl | hp
      · refine ⟨id, ?_⟩
        rw [List.filter_cons_of_pos (by simpa [entryMark, hline] using hpline),
          hnone fun q hq heq => hnotin (List.mem_map.2 ⟨q, hq, heq.trans hpline.symm⟩)]
      · obtain ⟨id', hid'⟩ := hsome p hp hpline
        refine ⟨id', ?_⟩
        rw [List.filter_cons_of_neg ?_, hid']
        simp only [entryMark, true_and, hline, decide_eq_true_eq]
        intro heq
        exact hnotin (List.mem_map.2 ⟨p, hp, hpline.trans heq.symm⟩)

/-- The diagnostic of the least number on a line is a worst one exactly if the line is ranked. -/
theorem WorstOf.isWorst {lineCount : ℕ} {list : List LspDiagnostic}
    {table : List (ℤ × LspDiagnostic)} (h : WorstOf lineCount list table)
    (hranked : Ranked lineCount list) {p : ℤ × LspDiagnostic} (hp : p ∈ table) :
    IsWorst list p.2 := by
  obtain ⟨hmem, hstart, hnonneg, hlt, hle⟩ := h.least p hp
  intro d hd hline
  have hpd := hle d hd (hline.trans hstart)
  have hd1 := rank_cases d.severity
  by_cases hknown : p.2.severity = 2 ∨ p.2.severity = 3 ∨ p.2.severity = 4
  · by_cases hdknown : d.severity = 2 ∨ d.severity = 3 ∨ d.severity = 4
    · rwa [rank, rank, if_pos hknown, if_pos hdknown]
    · have hline' : d.startLine = p.1 := hline.trans hstart
      rcases hranked d hd (by omega) (by omega) (by omega) with ⟨d', hd', heq, hlow⟩ | hall
      · have := hle d' hd' (heq.trans hline')
        omega
      · have := hall p.2 hmem (hline.symm ▸ rfl)
        omega
  · have hone : rank p.2.severity = 1 := by rw [rank, if_neg hknown]
    omega

/-- What `lsp_diagnostics_apply` shows of the diagnostics. -/
theorem Remembers.shows_iff (h : doc.Remembers) (order : LineOrder) (list : List LspDiagnostic) :
    (doc.apply order encoding forwardWordEnd list).Shows encoding forwardWordEnd list ↔
      Ranked (bufferLineCount doc.buffer) list := by
  obtain ⟨-, hbuffer, htags, table, ids, hworst, hlength, hmarks⟩ :=
    h.apply order encoding forwardWordEnd list
  have hmarksOn (line : ℕ) : (doc.apply order encoding forwardWordEnd list).marksOn line =
      (List.zipWith entryMark ids table).filter fun m => m.diagnostic ∧ m.line = line := by
    have hold : (doc.marks.filter (¬ ·.diagnostic)).filter
        (fun m => m.diagnostic ∧ m.line = line) = [] := by
      simp +contextual [List.filter_eq_nil_iff]
    rw [marksOn, hmarks, List.filter_append, hold, List.nil_append]
  have hnonneg : ∀ p ∈ table, 0 ≤ p.1 := fun p hp => (hworst.least p hp).2.2.1
  have hon (line : ℕ) := filter_entryMarks line hlength hworst.nodup hnonneg
  simp only [← hmarksOn] at hon
  constructor
  · intro hshows d hd hunknown hd0 hdlt
    by_contra hcon
    simp only [not_or, not_exists, not_and, not_lt, not_forall] at hcon
    obtain ⟨hhigh, d', hd', hd'line, hd'known⟩ := hcon
    obtain ⟨p, hp, hpline⟩ := List.mem_map.1 (hworst.lines d hd hd0 hdlt)
    obtain ⟨hpmem, hpstart, -, -, hple⟩ := hworst.least p hp
    have hlow := hhigh p.2 hpmem (hpstart.trans hpline)
    have hple' := hple d' hd' (hd'line.trans hpline.symm)
    obtain ⟨line, hline⟩ : ∃ line : ℕ, d.startLine = line := ⟨d.startLine.toNat, by omega⟩
    obtain ⟨m, worst, hm, -, hworstline, hisworst, hicon⟩ :=
      hshows.marked d hd line hline (by rw [hbuffer]; omega)
    obtain ⟨id, hid⟩ := (hon line).2 p hp (hpline.trans hline)
    have hrank : rank worst.severity ≤ 1 := by
      refine (hisworst d hd (hline.trans hworstline.symm)).trans ?_
      rw [rank, if_neg (by omega)]
    have hrank1 : rank worst.severity = 1 := by
      have := rank_cases worst.severity
      omega
    obtain rfl : m = entryMark id p := by simpa [hid] using hm.symm
    have hcases : p.2.severity = 2 ∨ p.2.severity = 3 ∨ p.2.severity = 4 := by omega
    rw [hrank1] at hicon
    change (getSeverityInfo p.2.severity).iconName = _ at hicon
    rcases hcases with hs | hs | hs <;> rw [hs] at hicon <;> exact absurd hicon (by decide)
  · intro hranked
    refine ⟨fun d hd line hline hlt => ?_, fun line hnone => ?_, fun info hinfo i hi => ?_⟩
    · obtain ⟨p, hp, hpline⟩ := List.mem_map.1 (hworst.lines d hd (by omega)
        (by rw [hbuffer] at hlt; omega))
      obtain ⟨id, hid⟩ := (hon line).2 p hp (hpline.trans hline)
      obtain ⟨hpmem, hpstart, -⟩ := hworst.least p hp
      refine ⟨entryMark id p, p.2, hid, hpmem, hpstart.trans (hpline.trans hline),
        hworst.isWorst hranked hp, ?_⟩
      rw [getSeverityInfo_rank]
      rfl
    · refine (hon line).1 fun p hp hpline => ?_
      obtain ⟨hpmem, hpstart, -, hplt, -⟩ := hworst.least p hp
      rcases hnone with hnone | hnone
      · exact hnone p.2 hpmem (hpstart.trans hpline)
      · rw [hbuffer] at hnone
        omega
    · rw [hbuffer] at hi ⊢
      rw [htags, tags_clear (List.mem_map_of_mem hinfo) hi]
      simp only [Bool.false_eq_true, false_or, tagName_eq_iff hinfo, taggedRange_iff hi]

/-- After any run, a document shows the diagnostics of a list exactly if no line has an unknown
severity that is taken for less than a known one; the other marks are as they were, and a
diagnostic that is published without a severity is an error. -/
theorem apply_shows_iff (forwardWordEnd : List Sym → ℕ → Option ℕ) (buffer : List Sym)
    (events : List Event) (order : LineOrder) (encoding : LspPositionEncoding)
    (list : List LspDiagnostic) :
    let doc := events.foldl (step forwardWordEnd) (start buffer)
    let doc' := doc.apply order encoding forwardWordEnd list
    (doc'.Shows encoding forwardWordEnd list ↔ Ranked (bufferLineCount doc'.buffer) list) ∧
      doc'.buffer = doc.buffer ∧
      doc'.marks.filter (¬ ·.diagnostic) = doc.marks.filter (¬ ·.diagnostic) ∧
      ∀ object d, lspDiagnosticParse (.object object) = some d →
        Json.getNode object "severity" = none → rank d.severity = 1 := by
  intro doc doc'
  have h : doc.Remembers := remembers_run buffer events
  obtain ⟨-, hbuffer, -, table, ids, -, -, hmarks⟩ :=
    h.apply order encoding forwardWordEnd list
  refine ⟨(h.shows_iff order list).trans (by rw [hbuffer]), hbuffer, ?_,
    fun object d hd habsent => rank_of_absent hd habsent⟩
  have hnew : (List.zipWith entryMark ids table).filter (¬ ·.diagnostic) = [] := by
    refine List.filter_eq_nil_iff.2 fun m hm => ?_
    obtain ⟨id, -, entry, -, rfl⟩ := mem_zipWith_entryMark hm
    simp [entryMark]
  rw [hmarks, List.filter_append, hnew, List.append_nil, List.filter_filter]
  simp

/-- A warning and a diagnostic of severity 5 on one line. -/
theorem apply_unknown_severity :
    ¬ ((start []).apply ⟨id, fun _ => .refl _⟩ .utf16 (fun _ _ => none)
      [⟨2, 0, 0, 0, 0⟩, ⟨5, 0, 0, 0, 0⟩]).Shows .utf16 (fun _ _ => none)
        [⟨2, 0, 0, 0, 0⟩, ⟨5, 0, 0, 0, 0⟩] := by
  rw [(remembers_start []).shows_iff]
  unfold Ranked
  decide

end MarkedDoc

end Medit
