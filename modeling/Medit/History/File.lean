import Medit.History.Links

/-!
# The file of recent files

What is written to the file is read again, item by item.

## Main definitions

* `HistoryItem.Keyed` — no key of an item is empty.
* `Recent.load` — a list of items without those whose URI has come before.

## Main results

* `historyItems_savedEvents` — the items of a written list are read until an empty key.
* `HistoryMgr.does_ensureFiles` — the list that is loaded.
-/

namespace Medit

theorem Markup.events_append (m n : Markup) : (m.append n).events = m.events ++ n.events := by
  induction m with
  | nil => rfl
  | element name attrs children next _ ih => simp [Markup.append, Markup.events, ih]
  | text content next ih => simp [Markup.append, Markup.events, ih]

theorem Markup.events_foldr {α : Type*} (f : α → Markup) (l : List α) (m : Markup) :
    (l.foldr (fun a m => (f a).append m) m).events = l.flatMap (fun a => (f a).events) ++ m.events := by
  induction l with
  | nil => rfl
  | cons a l ih => simp [Markup.events_append, ih]

/-- No key of an item is empty. -/
def HistoryItem.Keyed (item : HistoryItem) : Prop := ∀ p ∈ item.data, p.1 ≠ []

instance (item : HistoryItem) : Decidable item.Keyed :=
  inferInstanceAs (Decidable (∀ p ∈ item.data, p.1 ≠ []))

namespace HistoryParser

variable {data : HistoryParser} {item : HistoryItem} {rest : List MarkupEvent}

/-- A datum is put into the item, unless its key is empty. -/
theorem parse_formatData (helement : data.element = .item) (hitem : data.item = some item)
    (p : List UInt8 × List UInt8) : data.parse ((HistoryItem.formatData p).events ++ rest) =
      if p.1 = [] then data
      else HistoryParser.parse { data with item := some (item.set p.1 p.2) } rest := by
  obtain ⟨key, value⟩ := p
  have hattrs : dataAttrs [("key", key), ("value", value)] none none = some (some key, some value) := by
    simp [dataAttrs]
  simp only [HistoryItem.formatData, Markup.events, List.cons_append, List.nil_append, parse,
    startElement, helement, startElementData, hitem, hattrs, ne_eq, not_true_eq_false, if_false]
  by_cases hkey : key = []
  · simp only [hkey, if_true]
  · simp only [hkey, if_false, endElement]

/-- The data of an item come after what it has, up to an empty key. -/
theorem parse_data (helement : data.element = .item) (hitem : data.item = some item)
    (l : List (List UInt8 × List UInt8)) :
    (∀ p ∈ l, p.1 ≠ []) ∧ data.parse (l.flatMap (fun p => (HistoryItem.formatData p).events) ++ rest) =
        HistoryParser.parse { data with
          item := some (l.foldl (fun item p => item.set p.1 p.2) item) } rest ∨
    (∃ p ∈ l, p.1 = []) ∧
      (data.parse (l.flatMap (fun p => (HistoryItem.formatData p).events) ++ rest)).added =
        data.added := by
  induction l generalizing data item with
  | nil =>
    refine Or.inl ⟨by simp, ?_⟩
    cases data
    simp_all
  | cons p l ih =>
    rw [List.flatMap_cons, List.append_assoc, parse_formatData helement hitem]
    by_cases hkey : p.1 = []
    · rw [if_pos hkey]
      exact Or.inr ⟨⟨p, by simp, hkey⟩, rfl⟩
    · rw [if_neg hkey]
      obtain ⟨hl, heq⟩ | ⟨⟨q, hq, hempty⟩, heq⟩ :=
        @ih { data with item := some (item.set p.1 p.2) } _ helement rfl
      · exact Or.inl ⟨by simpa [hkey] using hl, heq⟩
      · exact Or.inr ⟨⟨q, by simp [hq], hempty⟩, heq⟩

/-- The events of an item that has data. -/
theorem events_format (item : HistoryItem) (h : item.data ≠ []) : item.format.events =
    .text (CString.ascii "  ".toList) :: .start "item" [("uri", item.uri)] ::
      .text (CString.ascii "\n".toList) ::
      (item.data.flatMap (fun p => (HistoryItem.formatData p).events) ++
        [.text (CString.ascii "  ".toList), .stop, .text (CString.ascii "\n".toList)]) := by
  rw [HistoryItem.format, if_neg h]
  simp [Markup.events, Markup.events_foldr]

/-- An item is read as it was written, and the parser stops at an empty key. -/
theorem parse_format (seen : Bool) (added : List HistoryItem) (item : HistoryItem) :
    (HistoryParser.parse ⟨seen, .root, none, added⟩ (item.format.events ++ rest)).added =
      if item.Keyed then (HistoryParser.parse ⟨seen, .root, none, added ++ [item]⟩ rest).added
      else added := by
  have hattrs : itemAttrs [("uri", item.uri)] none = some (HistoryItem.new item.uri) := by
    simp [itemAttrs]
  by_cases hdata : item.data = []
  · have hnew : HistoryItem.new item.uri = item := HistoryItem.ext_data rfl hdata.symm
    have hkeyed : item.Keyed := by simp [HistoryItem.Keyed, hdata]
    rw [if_pos hkeyed, HistoryItem.format, if_pos hdata]
    simp only [Markup.events, List.cons_append, List.nil_append, parse, startElement,
      startElementItem, hattrs, ne_eq, not_true_eq_false, if_false, Option.map_some, endElement,
      hnew, Option.toList_some]
  · rw [events_format item hdata]
    simp only [List.cons_append, List.append_assoc, List.nil_append, parse, startElement,
      startElementItem, hattrs, ne_eq, not_true_eq_false, if_false, Option.map_some]
    have hcopy := HistoryItem.copy_eq item
    rw [HistoryItem.copy] at hcopy
    obtain ⟨hkeyed, heq⟩ | ⟨⟨p, hp, hempty⟩, heq⟩ :=
      @parse_data ⟨seen, .item, some (HistoryItem.new item.uri), added⟩ _ _
        rfl rfl item.data
    · have hk : item.Keyed := hkeyed
      rw [heq, if_pos hk, hcopy]
      simp only [parse, endElement, Option.toList_some]
    · have hk : ¬ item.Keyed := fun hkeyed => hkeyed p hp hempty
      rw [heq, if_neg hk]

/-- The items of a written list are read, up to one with an empty key. -/
theorem parse_items (seen : Bool) (added l : List HistoryItem) :
    (HistoryParser.parse ⟨seen, .root, none, added⟩ (l.flatMap (fun item => item.format.events) ++
      [.stop, .text (CString.ascii "\n".toList)])).added =
        added ++ l.takeWhile fun item => decide item.Keyed := by
  induction l generalizing added with
  | nil => simp [parse, endElement]
  | cons item l ih =>
    rw [List.flatMap_cons, List.append_assoc, parse_format]
    split_ifs with hkeyed
    · rw [ih]
      simp [hkeyed]
    · simp [hkeyed]

end HistoryParser

/-- What `moo_history_mgr_save` writes of a list that is not empty. -/
def savedEvents (l : List HistoryItem) : List MarkupEvent :=
  Markup.events (.element "md-recent-files" [("version", historyVersion)]
    (.text (CString.ascii "\n".toList) (l.foldr (fun item m => item.format.append m) .nil))
    (.text (CString.ascii "\n".toList) .nil))

theorem historyItems_savedEvents (l : List HistoryItem) :
    historyItems (savedEvents l) = l.takeWhile fun item => decide item.Keyed := by
  have hattrs : HistoryParser.rootAttrs [("version", historyVersion)] false = true := by
    simp [HistoryParser.rootAttrs]
  have hitems := HistoryParser.parse_items true [] l
  simp only [savedEvents, historyItems, Markup.events, Markup.events_foldr, List.append_nil,
    List.cons_append, HistoryParser.parse, HistoryParser.startElement,
    HistoryParser.startElementRoot, hattrs, Bool.false_eq_true, if_false, if_true, ne_eq,
    not_true_eq_false]
  exact hitems

/-! ## Loading -/

namespace Recent

/-- Items without those whose URI has come before. -/
def load (items : List HistoryItem) : List HistoryItem :=
  items.foldl (fun l item => if item.uri ∈ uris l then l else l ++ [item]) []

theorem foldl_load (l items : List HistoryItem) (h : (uris (l ++ items)).Nodup) :
    items.foldl (fun l item => if item.uri ∈ uris l then l else l ++ [item]) l = l ++ items := by
  induction items generalizing l with
  | nil => simp
  | cons item items ih =>
    have hnew : item.uri ∉ uris l := by
      rw [uris, List.map_append, List.nodup_append] at h
      exact fun hmem => h.2.2 _ hmem _ (by simp) rfl
    rw [List.foldl_cons, if_neg hnew, ih _ (by simpa using h)]
    simp

theorem load_of_nodup {items : List HistoryItem} (h : (uris items).Nodup) : load items = items :=
  foldl_load [] items h

/-- The URIs of a list that has been loaded are those of the file. -/
theorem uris_foldl_load (l items : List HistoryItem) (h : (uris l).Nodup) :
    (uris (items.foldl (fun l item => if item.uri ∈ uris l then l else l ++ [item]) l)).Nodup ∧
      ∀ uri, uri ∈ uris (items.foldl
        (fun l item => if item.uri ∈ uris l then l else l ++ [item]) l) ↔
          uri ∈ uris l ∨ uri ∈ uris items := by
  induction items generalizing l with
  | nil => simpa using h
  | cons item items ih =>
    rw [List.foldl_cons]
    split_ifs with hmem
    · refine ⟨(ih l h).1, fun uri => ?_⟩
      rw [(ih l h).2]
      simp only [uris, List.map_cons, List.mem_cons] at hmem ⊢
      grind
    · have hnodup : (uris (l ++ [item])).Nodup := by
        rw [uris, List.map_append, List.nodup_append]
        exact ⟨h, by simp, by grind⟩
      refine ⟨(ih _ hnodup).1, fun uri => ?_⟩
      rw [(ih _ hnodup).2]
      simp only [uris, List.map_append, List.map_cons, List.map_nil, List.mem_append,
        List.mem_cons, List.not_mem_nil, or_false]
      tauto

/-- As many files are loaded as there are URIs in the file. -/
theorem length_load (items : List HistoryItem) : (load items).length = (uris items).dedup.length := by
  obtain ⟨hnodup, hmem⟩ := uris_foldl_load [] items List.nodup_nil
  have hperm : (uris (load items)).Perm (uris items).dedup := by
    refine (List.perm_ext_iff_of_nodup hnodup (List.nodup_dedup _)).2 fun uri => ?_
    rw [List.mem_dedup]
    exact (hmem uri).trans (by simp [uris])
  have hlen := hperm.length_eq
  rwa [uris, List.length_map] at hlen

end Recent

namespace HistoryMgr

variable {mgr : HistoryMgr} (mem : KeyedQueue.Allocator)

/-- What the file of a manager lists. -/
def listed (mgr : HistoryMgr) : List HistoryItem := (mgr.file.map historyItems).getD []

/-- One call of `add_file`. -/
theorem does_addFile (hi : mgr.files.Indexed HistoryItem.uri) (item : HistoryItem) : ∃ files n, mgr.addFile mem item = { mgr with files := files, allocs := n } ∧
      files.Indexed HistoryItem.uri ∧
      files.items = if item.uri ∈ Recent.uris mgr.items then mgr.items else mgr.items ++ [item] := by
  unfold addFile
  cases ht : mgr.files.table item.uri with
  | some link =>
    exact ⟨mgr.files, mgr.allocs, rfl, hi, (if_pos ((mem_uris_iff hi).2 ⟨link, ht⟩)).symm⟩
  | none =>
    have hmem := hi.table_eq_none.1 ht
    have hnew : mgr.alloc mem ∉ mgr.files.links := mem.fresh _ _
    exact ⟨_, _, rfl, hi.pushTail hnew ht,
      (KeyedQueue.Indexed.items_pushTail hnew).trans (if_neg hmem).symm⟩

theorem does_foldl_addFile (hi : mgr.files.Indexed HistoryItem.uri) (l : List HistoryItem) :
    ∃ files n, l.foldl (addFile mem) mgr = { mgr with files := files, allocs := n } ∧
      files.Indexed HistoryItem.uri ∧ files.items = l.foldl
        (fun l item => if item.uri ∈ Recent.uris l then l else l ++ [item]) mgr.items := by
  induction l generalizing mgr with
  | nil => exact ⟨mgr.files, mgr.allocs, rfl, hi, rfl⟩
  | cons item l ih =>
    obtain ⟨files, n, heq, hfiles, hitems⟩ := does_addFile mem hi item
    obtain ⟨files', n', heq', hfiles', hitems'⟩ :=
      @ih { mgr with files := files, allocs := n } hfiles
    refine ⟨files', n', ?_, hfiles', ?_⟩
    · rw [List.foldl_cons, heq, heq']
    · rw [hitems', List.foldl_cons, ← hitems]

/-- The list is that of the file when it has not been loaded before. -/
theorem does_ensureFiles (h : mgr.Inv) : Does mgr (mgr.ensureFiles mem)
    (if mgr.loaded then mgr.items else Recent.load mgr.listed) [] := by
  unfold ensureFiles
  split_ifs with hl
  · exact .refl h.indexed hl
  · have hnil : mgr.items = [] := by
      rw [items, KeyedQueue.items, h.unloaded (by simpa using hl), List.map_nil]
    unfold loadFile listed
    cases hfile : mgr.file with
    | none => exact ⟨h.indexed, rfl, rfl, by simp [hnil, Recent.load], by simp⟩
    | some file =>
      obtain ⟨files, n, heq, hfiles, hitems⟩ :=
        @does_foldl_addFile { mgr with loaded := true } mem h.indexed (historyItems file)
      simp only [hfile] at heq ⊢
      rw [heq]
      refine ⟨hfiles, rfl, rfl, ?_, by simp⟩
      have hload : files.items = Recent.load (historyItems file) := by
        rw [hitems, Recent.load, ← hnil]
      simpa [hload] using Recent.Same.refl (Recent.load (historyItems file))

end HistoryMgr

end Medit
