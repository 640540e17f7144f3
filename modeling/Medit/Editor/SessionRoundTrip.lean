import Medit.Editor.Session

/-!
# A session loaded again

What the windows of a session show when it is loaded into an editor without windows, and when
that is what they showed when it was saved.

## Main definitions

* `Restorable` — a file that can be read again in its encoding.
* `Loading` — a window while its documents are loaded.

## Main results

* `loadDocSession_step`, `loadDocsSession_run` — one document and all documents of a window.
* `session_round_trip` — the session comes back exactly when no window has a file right after an
  untitled document and no file is open outside windows.
-/

namespace Medit.Editor.MooEditor

open Function

variable {F N : Type} {env : SessionEnv F N} {a : Answers F} {b e e' : MooEditor F}
  {d w : ℕ} {ds : List ℕ}

/-! ## A window while it is loaded -/

/-- The documents `ds` have been loaded into the window `w` since the state `b`. -/
structure Loading (b e : MooEditor F) (w : ℕ) (ds : List ℕ) : Prop where
  windows : e.windows = b.windows
  windowless : e.windowless = b.windowless
  window : ∀ v, v ≠ w → e.window v = b.window v
  doc : ∀ d, d < b.nextDoc → e.doc d = b.doc d
  nextWindow : e.nextWindow = b.nextWindow
  nextDoc : b.nextDoc ≤ e.nextDoc
  docs : (e.window w).docs = ds
  activeDoc : (e.window w).activeDoc = ds.getLast?
  nodup : ds.Nodup
  new : ∀ d ∈ ds, b.nextDoc ≤ d ∧ d < e.nextDoc
  empty : ∀ d ∈ ds, (e.doc d).file = none → (e.doc d).isEmpty = true

/-- The state in which a window without documents is to be loaded. -/
structure Ready (b : MooEditor F) (w : ℕ) : Prop extends b.Placed where
  mem : w ∈ b.windows
  docs : (b.window w).docs = []
  activeDoc : (b.window w).activeDoc = none

theorem Ready.loading (h : Ready b w) : Loading b b w [] :=
  ⟨rfl, rfl, fun _ _ => rfl, fun _ _ => rfl, rfl, le_rfl, h.docs, h.activeDoc, by simp, by simp,
    by simp⟩

theorem insertAfter_getLast (d : ℕ) (h : ds.Nodup) : insertAfter d ds.getLast? ds = ds ++ [d] := by
  rcases List.eq_nil_or_concat ds with rfl | ⟨l, x, rfl⟩
  · rfl
  · rw [List.concat_eq_append] at h ⊢
    have hx : x ∉ l := fun hx => (List.nodup_append.mp h).2.2 x hx x (by simp) rfl
    have hidx : (l ++ [x]).idxOf x + 1 = (l ++ [x]).length := by
      rw [List.idxOf_append_of_notMem hx]
      simp
    simp only [List.getLast?_append, List.getLast?_singleton, Option.some_or, insertAfter]
    rw [hidx, List.insertIdx_length_self]

namespace Loading

theorem placed (h : Loading b e w ds) (hr : Ready b w) : e.Placed where
  docs_nodup := by
    have hperm : e.getDocs.Perm (ds ++ b.getDocs) := by
      rw [getDocs_eq, getDocs_eq, h.windows, h.windowless]
      refine Bins.perm_items_append hr.windows_nodup hr.mem ?_ fun v hv => by rw [h.window v hv]
      rw [h.docs, hr.docs, List.append_nil]
    refine hperm.nodup_iff.mpr (List.nodup_append.mpr ⟨h.nodup, hr.docs_nodup, ?_⟩)
    intro x hx y hy
    have := (h.new x hx).1
    have := hr.docs_lt y hy
    omega
  windows_nodup := h.windows ▸ hr.windows_nodup
  docs_lt x hx := by
    rcases mem_getDocs.mp hx with ⟨v, hv, hxv⟩ | hx
    · rcases eq_or_ne v w with rfl | hne
      · exact (h.new x (h.docs ▸ hxv)).2
      · rw [h.window v hne] at hxv
        exact (hr.docs_lt x (mem_getDocs_of_window (h.windows ▸ hv) hxv)).trans_le h.nextDoc
    · rw [h.windowless] at hx
      exact (hr.docs_lt x (mem_getDocs.mpr (.inr hx))).trans_le h.nextDoc
  windows_lt v hv := h.nextWindow ▸ hr.windows_lt v (h.windows ▸ hv)

theorem getWindow (h : Loading b e w ds) (hr : Ready b w) (hd : d ∈ ds) :
    e.getWindow d = some w :=
  (h.placed hr).getWindow_eq_some.mpr ⟨h.windows ▸ hr.mem, h.docs.symm ▸ hd⟩

theorem getWindow_windowless (h : Loading b e w ds) (hr : Ready b w) (hd : d ∈ b.windowless) :
    e.getWindow d = none :=
  getWindow_eq_none.mpr fun _ hv hdv =>
    Bins.notMem_loose (h.placed hr).docs_nodup hv hdv (h.windowless.symm ▸ hd)

/-- Another document at the end of the window. -/
theorem append (h : Loading b e w ds) {doc : MooEdit F}
    (hdoc : doc.file = none → doc.isEmpty = true)
    (hwindows : e'.windows = e.windows) (hwindowless : e'.windowless = e.windowless)
    (hwindow : e'.window = update e.window w ⟨ds ++ [e.nextDoc], some e.nextDoc⟩)
    (hdocs : e'.doc = update e.doc e.nextDoc doc) (hnextWindow : e'.nextWindow = e.nextWindow)
    (hnextDoc : e'.nextDoc = e.nextDoc + 1) : Loading b e' w (ds ++ [e.nextDoc]) where
  windows := hwindows.trans h.windows
  windowless := hwindowless.trans h.windowless
  window v hv := by rw [hwindow, update_of_ne hv, h.window v hv]
  doc x hx := by
    have hne : x ≠ e.nextDoc := (hx.trans_le h.nextDoc).ne
    rw [hdocs, update_of_ne hne, h.doc x hx]
  nextWindow := hnextWindow.trans h.nextWindow
  nextDoc := by
    have := h.nextDoc
    omega
  docs := by rw [hwindow, update_self]
  activeDoc := by simp [hwindow]
  nodup := List.nodup_append.mpr ⟨h.nodup, by simp, fun x hx y hy => by
    have := (h.new x hx).2
    simp only [List.mem_singleton] at hy
    omega⟩
  new x hx := by
    have := h.nextDoc
    rcases List.mem_append.mp hx with hx | hx
    · have := h.new x hx
      omega
    · simp only [List.mem_singleton] at hx
      omega
  empty x hx hfile := by
    rcases List.mem_append.mp hx with hx | hx
    · have hne : x ≠ e.nextDoc := (h.new x hx).2.ne
      rw [hdocs, update_of_ne hne] at hfile ⊢
      exact h.empty x hx hfile
    · obtain rfl := List.mem_singleton.mp hx
      rw [hdocs, update_self] at hfile ⊢
      exact hdoc hfile

/-- A document of the window that gets a file. -/
theorem setDoc (h : Loading b e w ds) (hd : d ∈ ds) {doc : MooEdit F} (hdoc : doc.file ≠ none) :
    Loading b (e.setDoc d doc) w ds where
  windows := h.windows
  windowless := h.windowless
  window := h.window
  doc x hx := by
    have hne : x ≠ d := fun heq => (h.new d hd).1.not_gt (heq ▸ hx)
    rw [doc_setDoc_of_ne e hne, h.doc x hx]
  nextWindow := h.nextWindow
  nextDoc := h.nextDoc
  docs := h.docs
  activeDoc := h.activeDoc
  nodup := h.nodup
  new := h.new
  empty x hx hfile := by
    rcases eq_or_ne x d with rfl | hne
    · rw [doc_setDoc_self] at hfile
      exact absurd hfile hdoc
    · rw [doc_setDoc_of_ne e hne] at hfile ⊢
      exact h.empty x hx hfile

/-- The last document of the window is brought to the front. -/
theorem setActiveDoc_last (h : Loading b e w ds) (hr : Ready b w) (hd : ds.getLast? = some d) :
    Loading b (e.setActiveDoc d) w ds := by
  have hmem := List.mem_of_getLast? hd
  have hset : e.setActiveDoc d = (e.setActiveWindow w).setWindow w ⟨ds, some d⟩ := by
    have hin : d ∈ ((e.setActiveWindow w).window w).docs := h.docs.symm ▸ hmem
    simp only [setActiveDoc, h.getWindow hr hmem, windowSetActiveDoc, if_pos hin]
    congr 2
    exact h.docs
  rw [hset]
  exact
    { windows := h.windows
      windowless := h.windowless
      window := fun v hv => by simpa [setWindow, setActiveWindow, hv] using h.window v hv
      doc := h.doc
      nextWindow := h.nextWindow
      nextDoc := h.nextDoc
      docs := by simp [setWindow]
      activeDoc := by simp [setWindow, hd]
      nodup := h.nodup
      new := h.new
      empty := h.empty }

/-- A document outside windows is not brought anywhere. -/
theorem setActiveDoc_windowless (h : Loading b e w ds) (hr : Ready b w) (hd : d ∈ b.windowless) :
    e.setActiveDoc d = e := by
  rw [setActiveDoc, h.getWindow_windowless hr hd]

/-- A document inserted after the active one comes last. -/
theorem insertDoc_window (h : Loading b e w ds) (hwindow : e'.window = e.window) (x : ℕ) :
    (e'.insertDoc w x).window = update e.window w ⟨ds ++ [x], some x⟩ := by
  have hlast : (e.window w).activeDoc.filter (· ∈ (e.window w).docs) = ds.getLast? := by
    rw [h.activeDoc, h.docs]
    cases hd : ds.getLast? with
    | none => rfl
    | some y => simp [Option.filter, List.mem_of_getLast? hd]
  rw [insertDoc, setWindow, hwindow, hlast, h.docs, insertAfter_getLast x h.nodup]

end Loading

/-! ## Files that are loaded -/

/-- A file that can be read again in the encoding it is recorded with. -/
structure Restorable (env : SessionEnv F N) (a : Answers F) (file : F) (enc : String) :
    Prop where
  isLocal : env.isLocal file = true
  uri : env.uri file ≠ ""
  newForUri : env.newForUri (env.uri file) = file
  encoding : enc ≠ ""
  loads : ∃ hasText, a.loadFile file (normalizeEncoding (some enc)) none = some (enc, hasText)

theorem Loading.normName_windowless (h : Loading b e w ds) (hr : Ready b w)
    (hd : d ∈ b.windowless) : e.normName env.toEnv d = b.normName env.toEnv d := by
  rw [normName, normName, h.doc d (hr.docs_lt d (mem_getDocs.mpr (.inr hd)))]

/-- No document of a window has the name of the file. -/
def NotInWindows (env : SessionEnv F N) (e : MooEditor F) (file : F) : Prop :=
  ∀ v ∈ e.windows, ∀ x ∈ (e.window v).docs,
    e.normName env.toEnv x ≠ some (env.normalizedName file)

/-- The document that a file is read into. -/
def loadedDoc (doc : MooEdit F) (t : F × String) (hasText : Bool) : MooEdit F :=
  { doc.clearStatus with file := some t.1, encoding := t.2, hasText }

theorem fillDoc_loads (env : SessionEnv F N) {info : OpenInfo F} {t : F × String} {hasText : Bool}
    (hfile : info.file = t.1) (henc : info.encoding = some t.2) (hnew : info.createNew = false)
    (hbusy : (e.doc d).busy = false)
    (hloads : a.loadFile t.1 (normalizeEncoding (some t.2)) none = some (t.2, hasText)) :
    e.fillDoc env.toEnv a d info = (true, e.setDoc d (loadedDoc (e.doc d) t hasText)) := by
  have hnone : normalizeEncoding none = none := rfl
  simp [fillDoc, hnew, editLoadFile, hbusy, hfile, henc, hnone, hloads, loadedDoc]

/-- The files shown in windows have names from the list. -/
def Named (env : SessionEnv F N) (e : MooEditor F) (names : List N) : Prop :=
  ∀ v ∈ e.windows, ∀ t, some t ∈ (e.window v).docs.map e.docShown →
    env.normalizedName t.1 ∈ names

/-- The name of what a document shows. -/
def itemName (env : SessionEnv F N) (item : Option (F × String)) : List N :=
  (item.map fun t => env.normalizedName t.1).toList

theorem Named.notInWindows {names : List N} (h : Named env e names) {file : F}
    (hfile : env.normalizedName file ∉ names) : NotInWindows env e file := by
  intro v hv x hx hname
  obtain ⟨g, hg, hgn⟩ := Option.map_eq_some_iff.mp hname
  have hshown : e.docShown x = some (g, (e.doc x).encoding) := by simp [docShown, hg]
  exact hfile (hgn ▸ h v hv _ (List.mem_map.mpr ⟨x, hx, hshown⟩))

/-- The element of a file that can be read again. -/
structure FileNode (env : SessionEnv F N) (a : Answers F) (node : DocNode) (t : F × String) :
    Prop extends Restorable env a t.1 t.2 where
  node_uri : DocNode.uri env true node = some (env.uri t.1)
  node_encoding : node.encoding = some t.2

/-- The element of a document that shows `item`. -/
def NodeFor (env : SessionEnv F N) (a : Answers F) (node : DocNode) :
    Option (F × String) → Prop
  | none => DocNode.uri env true node = none
  | some t => FileNode env a node t

/-! ## The editor that was saved -/

/-- An editor whose windows can be restored: each window has documents, one of them active, and
the files in windows are different and can be read again. -/
structure Recorded (env : SessionEnv F N) (a : Answers F) (src : MooEditor F) : Prop
    extends src.Placed where
  activeDoc : ∀ w ∈ src.windows, ∃ d ∈ (src.window w).docs, (src.window w).activeDoc = some d
  restorable : ∀ w ∈ src.windows, ∀ d ∈ (src.window w).docs, ∀ file,
    (src.doc d).file = some file → Restorable env a file (src.doc d).encoding
  distinct : (src.windows.flatMap fun w =>
    (src.window w).docs.flatMap fun d => itemName env (src.docShown d)).Nodup

theorem Recorded.nodeFor {src : MooEditor F} (h : Recorded env a src) (hw : w ∈ src.windows)
    (activeDoc : Option ℕ) {s : ℕ} (hs : s ∈ (src.window w).docs) :
    NodeFor env a (src.saveDocSession env activeDoc s) (src.docShown s) := by
  cases hfile : (src.doc s).file with
  | none => simp [docShown, hfile, NodeFor, DocNode.uri, saveDocSession]
  | some file =>
    have hr := h.restorable w hw s hs file hfile
    simp only [docShown, hfile, Option.map_some, NodeFor]
    refine ⟨hr, ?_, ?_⟩
    · simp [DocNode.uri, saveDocSession, hfile, hr.uri, Option.filter]
    · simp [saveDocSession, hfile, hr.uri, hr.encoding]

/-! ## New windows -/

theorem createWindow_ready (h : e.Placed) : Ready e.createWindow.2 e.nextWindow :=
  ⟨createWindow_placed h, by simp [createWindow], by simp [createWindow], by simp [createWindow]⟩

theorem createWindow_window_of_ne (e : MooEditor F) {v : ℕ} (h : v ≠ e.nextWindow) :
    e.createWindow.2.window v = e.window v := update_of_ne h ..

theorem createWindow_named {names : List N} (he : e.Placed) (hn : Named env e names) :
    Named env e.createWindow.2 names := by
  intro v hv t ht
  rcases List.mem_append.mp hv with hv | hv
  · have hne : v ≠ e.nextWindow := (he.windows_lt v hv).ne
    rw [createWindow_window_of_ne e hne] at ht
    exact hn v hv t ht
  · rw [List.mem_singleton.mp hv, (createWindow_ready he).docs] at ht
    simp at ht

/-! ## Files that are open elsewhere -/

variable [DecidableEq N]

/-- Whether a file is open in a document outside windows. -/
def openedOutside (env : SessionEnv F N) (e : MooEditor F) (t : F × String) : Bool :=
  e.windowless.any fun d => e.normName env.toEnv d = some (env.normalizedName t.1)

theorem Loading.getDocForFile_opened (h : Loading b e w ds) (hr : Ready b w) {t : F × String}
    (hopen : openedOutside env b t = true) :
    ∃ d ∈ b.windowless, e.getDocForFile env.toEnv t.1 = some d := by
  obtain ⟨x, hx, hname⟩ := List.any_eq_true.mp hopen
  have hfound :
      (e.windowless.find? (e.normName env.toEnv · = some (env.normalizedName t.1))).isSome := by
    rw [List.find?_isSome]
    refine ⟨x, h.windowless.symm ▸ hx, ?_⟩
    simpa [h.normName_windowless hr hx] using hname
  obtain ⟨d, hd⟩ := Option.isSome_iff_exists.mp hfound
  refine ⟨d, h.windowless ▸ List.mem_of_find?_eq_some hd, ?_⟩
  rw [getDocForFile, List.find?_append, hd, Option.some_or]

theorem Loading.getDocForFile_not_opened (h : Loading b e w ds) (hr : Ready b w)
    {t : F × String} (hopen : openedOutside env b t = false)
    (hnot : NotInWindows env e t.1) : e.getDocForFile env.toEnv t.1 = none := by
  rw [getDocForFile, List.find?_eq_none]
  intro x hx
  rcases List.mem_append.mp hx with hx | hx
  · rw [h.windowless] at hx
    have hname := List.any_eq_false.mp hopen x hx
    simpa [h.normName_windowless hr hx] using hname
  · obtain ⟨v, hv, hxv⟩ := List.mem_flatMap.mp hx
    simpa using hnot v hv x hxv

/-! ## One document -/

/-- What loading one document does to the window. -/
structure Step (env : SessionEnv F N) (b e : MooEditor F) (w : ℕ) (ds : List ℕ)
    (item : Option (F × String)) (r : Option ℕ × MooEditor F) (ds' : List ℕ) : Prop where
  loading : Loading b r.2 w ds'
  shown : ds'.map r.2.docShown = restore (openedOutside env b) (ds.map e.docShown) item
  appended : Appended (openedOutside env b) (ds.map e.docShown) item →
    ∃ d, r.1 = some d ∧ ds' = ds ++ [d]

theorem docShown_congr (h : e'.doc d = e.doc d) : e'.docShown d = e.docShown d := by
  rw [docShown, docShown, h]

theorem Loading.map_docShown_append (h : Loading b e w ds) {doc : MooEdit F}
    (hdocs : e'.doc = update e.doc e.nextDoc doc) :
    (ds ++ [e.nextDoc]).map e'.docShown =
      ds.map e.docShown ++ [doc.file.map fun file => (file, doc.encoding)] := by
  rw [List.map_append, List.map_singleton, docShown, hdocs, update_self]
  congr 1
  refine List.map_congr_left fun x hx => docShown_congr ?_
  rw [hdocs, update_of_ne (h.new x hx).2.ne]

/-- An untitled document comes last. -/
theorem loadDocSession_untitled (h : Loading b e w ds) (hsync : env.autoSync = false)
    {node : DocNode} (hnode : DocNode.uri env true node = none) :
    ∃ ds', Step env b e w ds none (e.loadDocSession env a w true node) ds' := by
  have hload : e.loadDocSession env a w true node =
      (some e.nextDoc, e.addNewDoc env.toEnv w) := by
    simp [loadDocSession, hnode, newDoc, hsync, newDocIn, newDocWindow]
  have happend : Loading b (e.addNewDoc env.toEnv w) w (ds ++ [e.nextDoc]) :=
    h.append (fun _ => rfl) rfl rfl (h.insertDoc_window rfl e.nextDoc) rfl rfl rfl
  have hdoc : (e.addNewDoc env.toEnv w).doc = update e.doc e.nextDoc _ := rfl
  rw [hload]
  exact ⟨_, happend, h.map_docShown_append hdoc, fun _ => ⟨_, rfl, rfl⟩⟩

/-- A file that is open outside windows does not come. -/
theorem loadDocSession_opened (h : Loading b e w ds) (hr : Ready b w) {node : DocNode}
    {t : F × String} (hnode : FileNode env a node t) (hopen : openedOutside env b t = true) :
    ∃ ds', Step env b e w ds (some t) (e.loadDocSession env a w true node) ds' := by
  obtain ⟨d, hd, hfound⟩ := h.getDocForFile_opened hr hopen
  have hload : e.loadDocSession env a w true node = (some d, e) := by
    simp [loadDocSession, hnode.node_uri, loadFile, hnode.newForUri, hnode.isLocal, hfound,
      loadOpenFile, h.setActiveDoc_windowless hr hd]
  rw [hload]
  refine ⟨ds, h, by simp [restore, hopen], fun happ => ?_⟩
  have := (happ t rfl).1
  simp [hopen] at this

/-- A file takes the place of an untitled last document. -/
theorem loadNewFile_reused (h : Loading b e w ds) (hr : Ready b w) {info : OpenInfo F}
    {t : F × String} {hasText : Bool} (hfile : info.file = t.1) (henc : info.encoding = some t.2)
    (hnew : info.createNew = false)
    (hloads : a.loadFile t.1 (normalizeEncoding (some t.2)) none = some (t.2, hasText))
    (hopen : openedOutside env b t = false) (hd : ds.getLast? = some d)
    (hempty : (e.doc d).isEmpty = true) :
    Step env b e w ds (some t) (e.loadNewFile env.toEnv a info (some w)) ds := by
  have hbusy : (e.doc d).busy = false := by
    simp only [MooEdit.isEmpty, Bool.and_eq_true] at hempty
    simpa using hempty.1.1.1
  have huntitled : (e.doc d).file = none := by
    simp only [MooEdit.isEmpty, Bool.and_eq_true] at hempty
    simpa [MooEdit.isUntitled] using hempty.1.2
  have hload : e.loadNewFile env.toEnv a info (some w) =
      (some d, (e.setDoc d (loadedDoc (e.doc d) t hasText)).setActiveDoc d) := by
    have hreuse : e.reusableDoc (some w) = some d := by
      simp [reusableDoc, h.activeDoc, hd, hempty, Option.filter]
    simp [loadNewFile, hreuse, fillDoc_loads env hfile henc hnew hbusy hloads]
  have hmem := List.mem_of_getLast? hd
  obtain ⟨l, rfl⟩ := List.getLast?_eq_some_iff.mp hd
  have hl : d ∉ l := fun hl => (List.nodup_append.mp h.nodup).2.2 d hl d (by simp) rfl
  have hkeep : ∀ x ∈ l, (e.setDoc d (loadedDoc (e.doc d) t hasText)).docShown x = e.docShown x :=
    fun x hx => docShown_congr (doc_setDoc_of_ne e (ne_of_mem_of_not_mem hx hl) _)
  have hlast : e.docShown d = none := by simp [docShown, huntitled]
  rw [hload]
  refine ⟨(h.setDoc hmem (by simp [loadedDoc])).setActiveDoc_last hr hd, ?_, fun happ => ?_⟩
  · have hshown : ((e.setDoc d (loadedDoc (e.doc d) t hasText)).setActiveDoc d).docShown =
        (e.setDoc d (loadedDoc (e.doc d) t hasText)).docShown :=
      funext fun x => docShown_congr (by simp)
    rw [hshown, List.map_append, List.map_congr_left hkeep]
    simp [restore, hopen, docShown, loadedDoc, huntitled]
  · have := (happ t rfl).2
    simp [hlast] at this

/-- A file comes last when the last document is not an untitled one. -/
theorem loadNewFile_appended (h : Loading b e w ds) (hr : Ready b w) {info : OpenInfo F}
    {t : F × String} {hasText : Bool} (hfile : info.file = t.1) (henc : info.encoding = some t.2)
    (hnew : info.createNew = false) (hwindow : info.newWindow = false)
    (hloads : a.loadFile t.1 (normalizeEncoding (some t.2)) none = some (t.2, hasText))
    (hopen : openedOutside env b t = false)
    (hlast : ∀ d, ds.getLast? = some d → (e.doc d).isEmpty = false) :
    Step env b e w ds (some t) (e.loadNewFile env.toEnv a info (some w)) (ds ++ [e.nextDoc]) := by
  have hreuse : e.reusableDoc (some w) = none := by
    simp only [reusableDoc, Option.bind_some, h.activeDoc]
    cases hd : ds.getLast? with
    | none => rfl
    | some d => simp [Option.filter, hlast d hd]
  have hbusy : ((e.newObject env.toEnv).2.doc e.nextDoc).busy = false := by simp [newObject]
  have hload : e.loadNewFile env.toEnv a info (some w) =
      (some e.nextDoc,
        (((e.newObject env.toEnv).2.setDoc e.nextDoc
          (loadedDoc ((e.newObject env.toEnv).2.doc e.nextDoc) t hasText)).insertDoc w
            e.nextDoc).setActiveDoc e.nextDoc) := by
    have hfill := fillDoc_loads (a := a) env hfile henc hnew hbusy hloads
    have hid : (e.newObject env.toEnv).1 = e.nextDoc := rfl
    simp [loadNewFile, hreuse, loadNewObject, hid, hfill, targetWindow, hwindow]
  have happend : Loading b (((e.newObject env.toEnv).2.setDoc e.nextDoc
      (loadedDoc ((e.newObject env.toEnv).2.doc e.nextDoc) t hasText)).insertDoc w e.nextDoc) w
        (ds ++ [e.nextDoc]) :=
    h.append (by simp [loadedDoc]) rfl rfl (h.insertDoc_window rfl e.nextDoc)
      (update_idem ..) rfl rfl
  rw [hload]
  refine ⟨happend.setActiveDoc_last hr (by simp), ?_, fun _ => ⟨_, rfl, rfl⟩⟩
  have hdoc : ((((e.newObject env.toEnv).2.setDoc e.nextDoc
      (loadedDoc ((e.newObject env.toEnv).2.doc e.nextDoc) t hasText)).insertDoc w
        e.nextDoc).setActiveDoc e.nextDoc).doc = update e.doc e.nextDoc _ :=
    (doc_setActiveDoc _ _).trans (update_idem ..)
  rw [h.map_docShown_append hdoc, restore_of_appended]
  · simp [loadedDoc]
  · intro t' ht'
    obtain rfl := Option.some.inj ht'
    refine ⟨hopen, ?_⟩
    cases hd : ds.getLast? with
    | none => simp [hd]
    | some d =>
      have hfile : (e.doc d).file ≠ none := fun hnone => by
        have := h.empty d (List.mem_of_getLast? hd) hnone
        simp [hlast d hd] at this
      simp [hd, docShown, Option.ne_none_iff_isSome.mp hfile]

theorem loadDocSession_step (h : Loading b e w ds) (hr : Ready b w) (hsync : env.autoSync = false)
    {node : DocNode} {item : Option (F × String)} (hnode : NodeFor env a node item)
    (hnot : ∀ t, item = some t → NotInWindows env e t.1) :
    ∃ ds', Step env b e w ds item (e.loadDocSession env a w true node) ds' := by
  cases item with
  | none => exact loadDocSession_untitled h hsync hnode
  | some t =>
    have hfile : FileNode env a node t := hnode
    by_cases hopen : openedOutside env b t = true
    · exact loadDocSession_opened h hr hfile hopen
    rw [Bool.not_eq_true] at hopen
    have hfound := h.getDocForFile_not_opened hr hopen (hnot t rfl)
    have hload : e.loadDocSession env a w true node =
        e.loadNewFile env.toEnv a ⟨t.1, some t.2, false, false, false⟩ (some w) := by
      simp [loadDocSession, hfile.node_uri, loadFile, hfile.newForUri, hfile.isLocal, hfound,
        hfile.node_encoding]
    obtain ⟨hasText, hloads⟩ := hfile.loads
    rw [hload]
    by_cases hlast : ∃ d, ds.getLast? = some d ∧ (e.doc d).isEmpty = true
    · obtain ⟨d, hd, hempty⟩ := hlast
      exact ⟨_, loadNewFile_reused h hr rfl rfl rfl hloads hopen hd hempty⟩
    · refine ⟨_, loadNewFile_appended h hr rfl rfl rfl rfl hloads hopen fun d hd => ?_⟩
      rw [← Bool.not_eq_true]
      exact fun hempty => hlast ⟨d, hd, hempty⟩

/-! ## What the windows show meanwhile -/

theorem mem_restore {T : Type} {opened : T → Bool} {shown : List (Option T)}
    {item x : Option T} (h : x ∈ restore opened shown item) : x ∈ shown ∨ x = item := by
  cases item with
  | none => simpa [restore] using h
  | some t =>
    rw [restore] at h
    split_ifs at h
    · exact .inl h
    · rcases List.mem_append.mp h with h | h
      · exact .inl (List.dropLast_subset _ h)
      · exact .inr (List.mem_singleton.mp h)
    · simpa using h

theorem Loading.docShown_old (h : Loading b e w ds) (hr : Ready b w) {v : ℕ} (hv : v ∈ b.windows)
    (hne : v ≠ w) : (e.window v).docs.map e.docShown = (b.window v).docs.map b.docShown := by
  rw [h.window v hne]
  exact List.map_congr_left fun x hx =>
    docShown_congr (h.doc x (hr.docs_lt x (mem_getDocs_of_window hv hx)))

theorem Step.named {names : List N} {item : Option (F × String)} {r : Option ℕ × MooEditor F}
    {ds' : List ℕ} (hs : Step env b e w ds item r ds') (h : Loading b e w ds) (hr : Ready b w)
    (hn : Named env e names) : Named env r.2 (names ++ itemName env item) := by
  intro v hv t ht
  rw [hs.loading.windows] at hv
  have hv' : v ∈ e.windows := h.windows.symm ▸ hv
  rcases eq_or_ne v w with rfl | hne
  · rw [hs.loading.docs, hs.shown] at ht
    rcases mem_restore ht with ht | rfl
    · rw [← h.docs] at ht
      exact List.mem_append_left _ (hn v hv' t ht)
    · exact List.mem_append_right _ (by simp [itemName])
  · rw [hs.loading.docShown_old hr hv hne, ← h.docShown_old hr hv hne] at ht
    exact List.mem_append_left _ (hn v hv' t ht)

/-! ## The documents of a window -/

/-- Where the active document is after one more has been appended. -/
theorem getElem?_idxOf_concat {x s d : ℕ} {before : List ℕ} (hlen : before.length = ds.length)
    (hs : s ∉ before) : (ds ++ [d])[(before ++ [s]).idxOf x]? =
      if s = x then some d else ds[before.idxOf x]? := by
  by_cases hx : x ∈ before
  · have hne : s ≠ x := fun heq => hs (heq ▸ hx)
    have hlt := List.idxOf_lt_length_of_mem hx
    rw [List.idxOf_append_of_mem hx, if_neg hne, List.getElem?_append_left (by omega)]
  · rw [List.idxOf_append_of_notMem hx, List.idxOf_eq_length hx]
    split_ifs with heq
    · subst heq
      simp [hlen]
    · rw [List.idxOf_eq_length (by simpa using Ne.symm heq)]
      simp [hlen]

/-- Induction on the documents that are left, `rest`; those before are `before`. As long as each
of them is appended, the one that is marked active is found at its own place. -/
theorem loadDocsSession_run (hr : Ready b w) (hsync : env.autoSync = false) {node : ℕ → DocNode}
    {item : ℕ → Option (F × String)} {x : ℕ} (rest before : List ℕ) (activeDoc : Option ℕ)
    {names : List N} (hnode : ∀ s ∈ rest, NodeFor env a (node s) (item s))
    (hactive : ∀ s ∈ rest, (node s).active = decide (s = x)) (h : Loading b e w ds)
    (hn : Named env e names)
    (hnames : (names ++ rest.flatMap fun s => itemName env (item s)).Nodup) :
    ∃ ds', Loading b (loadDocsSession env a w true e (rest.map node) activeDoc).2 w ds' ∧
      ds'.map (loadDocsSession env a w true e (rest.map node) activeDoc).2.docShown =
        (rest.map item).foldl (restore (openedOutside env b)) (ds.map e.docShown) ∧
      Named env (loadDocsSession env a w true e (rest.map node) activeDoc).2
        (names ++ rest.flatMap fun s => itemName env (item s)) ∧
      (AllAppended (openedOutside env b) (ds.map e.docShown) (rest.map item) →
        before.length = ds.length → (before ++ rest).Nodup → activeDoc = ds[before.idxOf x]? →
        (loadDocsSession env a w true e (rest.map node) activeDoc).1 =
          ds'[(before ++ rest).idxOf x]?) := by
  induction rest generalizing e ds before names activeDoc with
  | nil =>
    refine ⟨ds, h, rfl, ?_, fun _ _ _ hact => ?_⟩
    · rwa [List.flatMap_nil, List.append_nil]
    · rwa [List.append_nil]
  | cons s rest ih =>
    rw [List.flatMap_cons, ← List.append_assoc] at hnames ⊢
    have hnot : ∀ t, item s = some t → NotInWindows env e t.1 := fun t ht => by
      refine hn.notInWindows fun hmem => ?_
      have hnodup := (List.nodup_append.mp hnames).1
      exact (List.nodup_append.mp hnodup).2.2 _ hmem _ (by simp [itemName, ht]) rfl
    obtain ⟨ds₁, hstep⟩ := loadDocSession_step h hr hsync (hnode s List.mem_cons_self) hnot
    have hcons : loadDocsSession env a w true e ((s :: rest).map node) activeDoc =
        loadDocsSession env a w true (e.loadDocSession env a w true (node s)).2 (rest.map node)
          (if (node s).active then (e.loadDocSession env a w true (node s)).1.or activeDoc
            else activeDoc) := rfl
    obtain ⟨ds', hload, hshown, hnamed, hact⟩ :=
      ih (before ++ [s])
        (if (node s).active then (e.loadDocSession env a w true (node s)).1.or activeDoc
          else activeDoc)
        (fun y hy => hnode y (List.mem_cons_of_mem _ hy))
        (fun y hy => hactive y (List.mem_cons_of_mem _ hy)) hstep.loading
        (hstep.named h hr hn) hnames
    rw [hcons]
    refine ⟨ds', hload, ?_, hnamed, fun happ hlen hnodup hbefore => ?_⟩
    · rw [hshown, hstep.shown]
      rfl
    · obtain ⟨d, hd, rfl⟩ := hstep.appended happ.1
      rw [hstep.shown, restore_of_appended happ.1] at hact
      have hs : s ∉ before := fun hmem =>
        (List.nodup_append.mp hnodup).2.2 s hmem s List.mem_cons_self rfl
      rw [List.append_cons] at hnodup ⊢
      refine hact happ.2 (by simp [hlen]) hnodup ?_
      rw [getElem?_idxOf_concat hlen hs, hactive s List.mem_cons_self, hd, hbefore]
      by_cases heq : s = x <;> simp [heq]

/-! ## One window -/

/-- What a window is to show, and which of its documents is active. -/
def items (src : MooEditor F) (w : ℕ) : List (Option (F × String)) :=
  (src.window w).docs.map src.docShown

/-- What loading one window does: those before stay as they are, and the new one shows what
becomes of its documents. -/
structure WindowLoaded (env : SessionEnv F N) (src e : MooEditor F) (w : ℕ) (names : List N)
    (e' : MooEditor F) : Prop where
  placed : e'.Placed
  windows : e'.windows = e.windows ++ [e.nextWindow]
  outside : openedOutside env e' = openedOutside env e
  old : ∀ v ∈ e.windows, e'.windowShown v = e.windowShown v
  shown : (e'.windowShown e.nextWindow).1 =
    (src.items w).foldl (restore (openedOutside env e)) []
  activeDoc : AllAppended (openedOutside env e) [] (src.items w) →
    (e'.windowShown e.nextWindow).2 = (src.windowShown w).2
  named : Named env e' names

theorem windowSetActiveDoc_window_of_ne (e : MooEditor F) (d : ℕ) {v : ℕ} (h : v ≠ w) :
    (e.windowSetActiveDoc w d).window v = e.window v := by
  unfold windowSetActiveDoc
  split_ifs
  · exact update_of_ne h ..
  · rfl

/-- The window turned to the document that was marked active, if there is one. -/
def turnedTo (e : MooEditor F) (w : ℕ) : Option ℕ → MooEditor F
  | some d => e.windowSetActiveDoc w d
  | none => e

theorem turnedTo_sameTabs (e : MooEditor F) (w : ℕ) (activeDoc : Option ℕ) :
    e.SameTabs (e.turnedTo w activeDoc) := by
  cases activeDoc with
  | none => exact .refl e
  | some d => exact windowSetActiveDoc_sameTabs e w d

@[simp] theorem doc_turnedTo (e : MooEditor F) (w : ℕ) (activeDoc : Option ℕ) :
    (e.turnedTo w activeDoc).doc = e.doc := by
  cases activeDoc with
  | none => rfl
  | some d => exact doc_windowSetActiveDoc e w d

theorem turnedTo_window_of_ne (e : MooEditor F) (activeDoc : Option ℕ) {v : ℕ} (h : v ≠ w) :
    (e.turnedTo w activeDoc).window v = e.window v := by
  cases activeDoc with
  | none => rfl
  | some d => exact windowSetActiveDoc_window_of_ne e d h

/-- A window whose documents have been loaded, with the active one turned to. -/
theorem Loading.windowSetActiveDoc (h : Loading b e w ds) (d : ℕ) :
    ((e.windowSetActiveDoc w d).window w).docs = ds ∧
      (d ∈ ds → ((e.windowSetActiveDoc w d).window w).activeDoc = some d) := by
  refine ⟨((windowSetActiveDoc_sameTabs e w d).docs w).trans h.docs, fun hd => ?_⟩
  have hmem : d ∈ (e.window w).docs := h.docs.symm ▸ hd
  simp [MooEditor.windowSetActiveDoc, hmem, setWindow]

theorem loadWindowSession_eq (env : SessionEnv F N) (a : Answers F) (e : MooEditor F)
    (node : WindowNode) : e.loadWindowSession env a true node =
      (loadDocsSession env a e.nextWindow true e.createWindow.2 node.docs none).2.turnedTo
        e.nextWindow
        (loadDocsSession env a e.nextWindow true e.createWindow.2 node.docs none).1 := by
  rw [loadWindowSession]
  rcases loadDocsSession env a e.nextWindow true e.createWindow.2 node.docs none
    with ⟨_ | d, e'⟩ <;> rfl

theorem windowShown_congr {v : ℕ} (hwindow : e'.window v = e.window v)
    (hdoc : ∀ x ∈ (e.window v).docs, e'.doc x = e.doc x) :
    e'.windowShown v = e.windowShown v := by
  rw [windowShown, windowShown, hwindow,
    List.map_congr_left fun x hx => docShown_congr (hdoc x hx)]

theorem openedOutside_congr (hwindowless : e'.windowless = e.windowless)
    (hdoc : ∀ x ∈ e.windowless, e'.doc x = e.doc x) :
    openedOutside env e' = openedOutside env e := by
  funext t
  rw [openedOutside, openedOutside, hwindowless, Bool.eq_iff_iff, List.any_eq_true,
    List.any_eq_true]
  refine exists_congr fun x => and_congr_right fun hx => ?_
  rw [normName, normName, hdoc x hx]

/-- The documents of one window, all of them new, and the window turned to the active one. -/
theorem loadWindowSession_loaded {src : MooEditor F} (hrec : Recorded env a src)
    (hsync : env.autoSync = false) (he : e.Placed) (hw : w ∈ src.windows) {names : List N}
    (hn : Named env e names) (top : Option ℕ)
    (hnames : (names ++ (src.window w).docs.flatMap fun d => itemName env (src.docShown d)).Nodup) :
    WindowLoaded env src e w
      (names ++ (src.window w).docs.flatMap fun d => itemName env (src.docShown d))
      (e.loadWindowSession env a true (src.saveWindowSession env top w)) := by
  obtain ⟨x, hx, hactive⟩ := hrec.activeDoc w hw
  have hr := createWindow_ready he
  obtain ⟨ds, hload, hshown, hnamed, hact⟩ :=
    loadDocsSession_run (x := x) hr hsync (src.window w).docs [] none
      (fun s hs => hrec.nodeFor hw (src.window w).activeDoc hs)
      (fun s _ => by
        simp only [saveDocSession, hactive, Option.some.injEq]
        exact decide_eq_decide.mpr eq_comm) hr.loading
      (createWindow_named he hn) hnames
  rw [loadWindowSession_eq]
  have hdocs : (src.saveWindowSession env top w).docs =
      (src.window w).docs.map (src.saveDocSession env (src.window w).activeDoc) := rfl
  rw [hdocs]
  generalize loadDocsSession env a e.nextWindow true e.createWindow.2 _ none = r
    at hload hshown hnamed hact ⊢
  have hsame := turnedTo_sameTabs r.2 e.nextWindow r.1
  have hdoc (x : ℕ) (hx : x ∈ e.getDocs) : (r.2.turnedTo e.nextWindow r.1).doc x = e.doc x := by
    rw [doc_turnedTo]
    exact hload.doc x (he.docs_lt x hx)
  have hshownEq : (r.2.turnedTo e.nextWindow r.1).docShown = r.2.docShown :=
    funext fun x => docShown_congr (by rw [doc_turnedTo])
  have hopened : openedOutside env e.createWindow.2 = openedOutside env e := rfl
  rw [hopened] at hshown hact
  refine ⟨hsame.placed (hload.placed hr), hsame.windows.trans hload.windows, ?_, ?_, ?_, ?_, ?_⟩
  · refine openedOutside_congr (hsame.windowless.trans hload.windowless) fun x hx => ?_
    exact hdoc x (mem_getDocs.mpr (.inr hx))
  · intro v hv
    have hne : v ≠ e.nextWindow := (he.windows_lt v hv).ne
    refine windowShown_congr ?_ fun x hx => hdoc x (mem_getDocs_of_window hv hx)
    rw [turnedTo_window_of_ne r.2 r.1 hne, hload.window v hne, createWindow_window_of_ne e hne]
  · rw [windowShown, hsame.docs, hload.docs, hshownEq, hshown]
    rfl
  · intro happ
    have hlen : ds.length = (src.window w).docs.length := by
      have := congrArg List.length (hshown.trans (foldl_restore_of_allAppended happ))
      simpa using this
    have hk : (src.window w).docs.idxOf x < ds.length := by
      rw [hlen]
      exact List.idxOf_lt_length_of_mem hx
    have hsrc := Bins.nodup_bin (f := fun w => (src.window w).docs) hrec.docs_nodup hw
    have hr1 : r.1 = some (ds[(src.window w).docs.idxOf x]) := by
      rw [hact happ rfl hsrc rfl]
      exact List.getElem?_eq_getElem hk
    obtain ⟨hd, hactiveDoc⟩ := hload.windowSetActiveDoc (ds[(src.window w).docs.idxOf x])
    rw [hr1, turnedTo, windowShown, windowShown, hd, hactiveDoc (List.getElem_mem hk), hactive]
    simp [hload.nodup.idxOf_getElem]
  · intro v hv t ht
    rw [hsame.docs, hshownEq] at ht
    exact hnamed v (hsame.windows ▸ hv) t ht

/-! ## All windows -/

/-- The names of the files that a window shows. -/
def windowNames (env : SessionEnv F N) (src : MooEditor F) (w : ℕ) : List N :=
  (src.window w).docs.flatMap fun d => itemName env (src.docShown d)

/-- What has been loaded of the windows `rest` since the state `e`: new windows `ids`, which show
what becomes of their documents. -/
structure WindowsLoaded (env : SessionEnv F N) (src e : MooEditor F) (rest ids : List ℕ)
    (e' : MooEditor F) : Prop where
  windows : e'.windows = e.windows ++ ids
  nodup : e'.windows.Nodup
  old : ∀ v ∈ e.windows, e'.windowShown v = e.windowShown v
  shown : ids.map (fun v => (e'.windowShown v).1) =
    rest.map fun w => (src.items w).foldl (restore (openedOutside env e)) []
  same : (∀ w ∈ rest, AllAppended (openedOutside env e) [] (src.items w)) →
    ids.map e'.windowShown = rest.map src.windowShown

/-- Induction on the windows that are left, `rest`; those before are `before`. The one that is
marked active is found at its own place. -/
theorem loadWindowsSession_run {src : MooEditor F} (hrec : Recorded env a src)
    (hsync : env.autoSync = false) {x : ℕ} (rest before : List ℕ) (activeWindow : Option ℕ)
    {names : List N} (hrest : ∀ w ∈ rest, w ∈ src.windows) (he : e.Placed)
    (hn : Named env e names) (hnames : (names ++ rest.flatMap (src.windowNames env)).Nodup) :
    ∃ ids, WindowsLoaded env src e rest ids
        (loadWindowsSession env a true e (rest.map (src.saveWindowSession env (some x)))
          activeWindow).2 ∧
      (before.length = e.windows.length → (before ++ rest).Nodup →
        activeWindow = e.windows[before.idxOf x]? →
        (loadWindowsSession env a true e (rest.map (src.saveWindowSession env (some x)))
          activeWindow).1 = (e.windows ++ ids)[(before ++ rest).idxOf x]?) := by
  induction rest generalizing e before names activeWindow with
  | nil =>
    refine ⟨[], ⟨by simp [loadWindowsSession], he.windows_nodup, fun _ _ => rfl, rfl,
      fun _ => rfl⟩, fun _ _ hact => ?_⟩
    rwa [List.append_nil, List.append_nil]
  | cons w rest ih =>
    rw [List.flatMap_cons, ← List.append_assoc] at hnames
    have hone := loadWindowSession_loaded hrec hsync he (hrest w List.mem_cons_self) hn (some x)
      (List.nodup_append.mp hnames).1
    obtain ⟨ids, hload, hact⟩ := ih (before ++ [w])
      (if (src.saveWindowSession env (some x) w).active then some e.nextWindow else activeWindow)
      (fun v hv => hrest v (List.mem_cons_of_mem _ hv)) hone.placed hone.named hnames
    have hcons : loadWindowsSession env a true e
        ((w :: rest).map (src.saveWindowSession env (some x))) activeWindow =
          loadWindowsSession env a true
            (e.loadWindowSession env a true (src.saveWindowSession env (some x) w))
            (rest.map (src.saveWindowSession env (some x)))
            (if (src.saveWindowSession env (some x) w).active then some e.nextWindow
              else activeWindow) := rfl
    rw [hcons]
    have hmem : e.nextWindow ∈
        (e.loadWindowSession env a true (src.saveWindowSession env (some x) w)).windows := by
      rw [hone.windows]
      simp
    have hnew := hload.old e.nextWindow hmem
    refine ⟨e.nextWindow :: ids, ⟨?_, hload.nodup, fun v hv => ?_, ?_, fun happ => ?_⟩,
      fun hlen hnodup hbefore => ?_⟩
    · rw [hload.windows, hone.windows, List.append_assoc]
      rfl
    · rw [hload.old v (by rw [hone.windows]; exact List.mem_append_left _ hv), hone.old v hv]
    · rw [List.map_cons, List.map_cons, hnew, hone.shown, hload.shown, hone.outside]
    · have hrestAll := hload.same fun v hv => by
        rw [hone.outside]
        exact happ v (List.mem_cons_of_mem _ hv)
      have hfirst := happ w List.mem_cons_self
      rw [List.map_cons, List.map_cons, hnew, hrestAll]
      congr 1
      refine Prod.ext ?_ (hone.activeDoc hfirst)
      rw [hone.shown, foldl_restore_of_allAppended hfirst]
      rfl
    · have hw : w ∉ before := fun hmem =>
        (List.nodup_append.mp hnodup).2.2 w hmem w List.mem_cons_self rfl
      rw [hone.windows] at hact
      rw [List.append_cons before] at hnodup ⊢
      rw [List.append_cons e.windows]
      refine hact (by simp [hlen]) hnodup ?_
      rw [getElem?_idxOf_concat hlen hw, hbefore]
      by_cases heq : w = x
      · simp [heq, saveWindowSession]
      · simp [heq, saveWindowSession, Ne.symm heq]

/-- No file of the windows of `src` is open in a document of `e` outside windows. -/
def NotOpenedOutside (env : SessionEnv F N) (src e : MooEditor F) : Prop :=
  ∀ w ∈ src.windows, ∀ t, some t ∈ src.items w → openedOutside env e t = false

theorem getTopWindow_mem (h : e.getTopWindow = some w) : w ∈ e.windows := by
  unfold getTopWindow at h
  rcases Option.or_eq_some_iff.mp h with h | ⟨-, h⟩
  · simpa using (Option.filter_eq_some_iff.mp h).2
  · exact List.mem_of_mem_head? h

theorem getTopWindow_of_windows_nil (h : e.windows = []) : e.getTopWindow = none := by
  cases ht : e.top <;> simp [getTopWindow, h, ht, Option.filter]

theorem getTopWindow_isSome (h : e.windows ≠ []) : ∃ w, e.getTopWindow = some w := by
  obtain ⟨v, hv⟩ : ∃ v, e.windows.head? = some v := by
    rwa [← Option.isSome_iff_exists, List.isSome_head?]
  unfold getTopWindow
  cases e.top.filter (· ∈ e.windows) with
  | none => exact ⟨v, hv⟩
  | some w => exact ⟨w, rfl⟩

/-- The windows show what they showed exactly if all documents of each have been appended. -/
theorem WindowsLoaded.shown_eq_iff {src : MooEditor F} {ids : List ℕ}
    (h : WindowsLoaded env src e src.windows ids e') :
    ids.map e'.windowShown = src.windows.map src.windowShown ↔
      (∀ w ∈ src.windows, NoFileAfterUntitled (src.items w)) ∧ NotOpenedOutside env src e := by
  constructor
  · intro heq
    have hfirst : ids.map (fun v => (e'.windowShown v).1) = src.windows.map src.items := by
      have := congrArg (List.map Prod.fst) heq
      rwa [List.map_map, List.map_map] at this
    rw [h.shown] at hfirst
    have hall : ∀ w ∈ src.windows,
        (src.items w).foldl (restore (openedOutside env e)) [] = src.items w :=
      List.map_inj_left.mp hfirst
    exact ⟨fun w hw => (foldl_restore_eq_iff.mp (hall w hw)).1,
      fun w hw => (foldl_restore_eq_iff.mp (hall w hw)).2⟩
  · rintro ⟨hchain, hnot⟩
    refine h.same fun w hw => allAppended_of_foldl_restore ?_
    rw [List.nil_append]
    exact foldl_restore_eq_iff.mpr ⟨hchain w hw, hnot w hw⟩

/-- The window brought to the front is the active one, and everything else is as it was. -/
theorem shown_setActiveWindow (e : MooEditor F) (hw : w ∈ e.windows) :
    (e.setActiveWindow w).shown = (e.windows.map e.windowShown, some (e.windows.idxOf w)) := by
  have htop : (e.setActiveWindow w).getTopWindow = some w := by
    simp [getTopWindow, setActiveWindow, hw, Option.filter]
  rw [shown, htop]
  rfl

theorem shown_of_windows_nil (h : e.windows = []) : e.shown = ([], none) := by
  rw [shown, getTopWindow_of_windows_nil h, h]
  rfl

/-- A session that is saved and loaded into an editor without windows gives the same windows
with the same documents, the same active ones and the same active window, exactly if in no window
a file comes right after an untitled document and no file is open outside windows. -/
theorem session_round_trip (env : SessionEnv F N) (a : Answers F) (src e : MooEditor F)
    (hrec : Recorded env a src) (he : e.Placed) (hwindows : e.windows = [])
    (hsync : env.autoSync = false) :
    (e.loadSession env a (src.saveSession env)).shown = src.shown ↔
      (∀ w ∈ src.windows, NoFileAfterUntitled (src.items w)) ∧ NotOpenedOutside env src e := by
  have hversion : (src.saveSession env).version.all (· = currentSessionVersion) = true := by
    simp [saveSession]
  by_cases hempty : src.windows = []
  · have hload : e.loadSession env a (src.saveSession env) = e := by
      simp [loadSession, saveSession, hempty, loadWindowsSession]
    rw [hload, shown_of_windows_nil hwindows, shown_of_windows_nil hempty]
    simp [NotOpenedOutside, hempty]
  obtain ⟨x, hx⟩ := getTopWindow_isSome hempty
  have hxmem := getTopWindow_mem hx
  have hnamed : Named env e [] := fun v hv => by simp [hwindows] at hv
  obtain ⟨ids, hload, hact⟩ := loadWindowsSession_run (x := x) hrec hsync src.windows [] none
    (fun _ hw => hw) he hnamed hrec.distinct
  have hlen : ids.length = src.windows.length := by
    simpa using congrArg List.length hload.shown
  have hk : src.windows.idxOf x < ids.length := hlen ▸ List.idxOf_lt_length_of_mem hxmem
  have hwin := hload.windows
  have hactive := hact (by simp [hwindows]) hrec.windows_nodup (by simp [hwindows])
  rw [hwindows, List.nil_append] at hwin hactive
  rw [List.nil_append, List.getElem?_eq_getElem hk] at hactive
  have hresult : e.loadSession env a (src.saveSession env) =
      (loadWindowsSession env a true e (src.windows.map (src.saveWindowSession env (some x)))
        none).2.setActiveWindow ids[src.windows.idxOf x] := by
    rw [loadSession, if_pos hversion]
    simp only [saveSession, hx, Option.isSome_some]
    generalize loadWindowsSession env a true e _ none = r at hactive ⊢
    obtain ⟨v, e'⟩ := r
    obtain rfl : v = some _ := hactive
    rfl
  have hnodup : ids.Nodup := hwin ▸ hload.nodup
  rw [hresult, shown_setActiveWindow _ (hwin.symm ▸ List.getElem_mem hk), hwin,
    hnodup.idxOf_getElem, shown, hx, Option.map_some, Prod.mk.injEq, and_iff_left rfl]
  exact hload.shown_eq_iff

/-! ## Two editors -/

/-- Files are their own URIs. -/
def uriEnv : SessionEnv String String where
  allowEmptyWindow := false
  embedded := false
  autoSync := false
  defaultEncoding := "UTF-8"
  normalizedName := id
  isLocal _ := true
  uri := id
  newForUri := id
  oldUri _ := none

/-- An editor with nothing in it. -/
def emptyEditor : MooEditor String where
  windows := []
  windowless := []
  window _ := ⟨[], none⟩
  doc _ := ⟨none, "UTF-8", false, false, false, false, false, false⟩
  nextWindow := 0
  nextDoc := 0
  top := none

/-- Two windows: one with the documents 0 and 1, the other with the document 2. -/
def threeDocs (doc : ℕ → MooEdit String) : MooEditor String where
  windows := [0, 1]
  windowless := []
  window w := if w = 0 then ⟨[0, 1], some 0⟩ else ⟨[2], some 2⟩
  doc := doc
  nextWindow := 2
  nextDoc := 3
  top := some 1

/-- The document of a file, and an untitled one without text. -/
def fileDoc (file enc : String) : MooEdit String :=
  ⟨some file, enc, false, false, false, false, false, true⟩

def untitledDoc : MooEdit String := ⟨none, "UTF-8", false, false, false, false, false, false⟩

theorem emptyEditor_placed : emptyEditor.Placed :=
  ⟨by decide, by decide, by decide, by decide⟩

theorem restorable_of_ne {file enc : String} (hfile : file ≠ "") (henc : enc ≠ "")
    (hauto : enc ≠ "auto") : Restorable uriEnv (.agreeing "") file enc :=
  ⟨rfl, hfile, rfl, henc, true, by
    simp [normalizeEncoding, Answers.agreeing, henc, hauto, Option.filter]⟩

theorem threeDocs_recorded {doc : ℕ → MooEdit String}
    (hdoc : ∀ d file, (doc d).file = some file →
      file ≠ "" ∧ (doc d).encoding ≠ "" ∧ (doc d).encoding ≠ "auto")
    (hdistinct : ((threeDocs doc).windows.flatMap ((threeDocs doc).windowNames uriEnv)).Nodup) :
    Recorded uriEnv (.agreeing "") (threeDocs doc) where
  docs_nodup := (by decide : [0, 1, 2].Nodup)
  windows_nodup := (by decide : [0, 1].Nodup)
  docs_lt := (by decide : ∀ d ∈ [0, 1, 2], d < 3)
  windows_lt := (by decide : ∀ w ∈ [0, 1], w < 2)
  activeDoc w hw := by
    obtain rfl | rfl : w = 0 ∨ w = 1 := by simpa [threeDocs] using hw
    · exact ⟨0, by simp [threeDocs], rfl⟩
    · exact ⟨2, by simp [threeDocs], rfl⟩
  restorable _ _ d _ file hfile := by
    obtain ⟨h, henc, hauto⟩ := hdoc d file hfile
    exact restorable_of_ne h henc hauto
  distinct := hdistinct

/-- A file and an untitled document, and another file. -/
def fileFirst : MooEditor String := threeDocs fun d =>
  if d = 0 then fileDoc "file:///a" "KOI8-R" else
    if d = 1 then untitledDoc else fileDoc "file:///b" "UTF-8"

/-- An untitled document and a file, and another file. -/
def untitledFirst : MooEditor String := threeDocs fun d =>
  if d = 0 then untitledDoc else
    if d = 1 then fileDoc "file:///a" "KOI8-R" else fileDoc "file:///b" "UTF-8"

theorem fileFirst_recorded : Recorded uriEnv (.agreeing "") fileFirst := by
  refine threeDocs_recorded (fun d file hfile => ?_) (by decide)
  split_ifs at hfile ⊢ <;> simp_all [fileDoc, untitledDoc] <;> (subst hfile; decide)

theorem untitledFirst_recorded : Recorded uriEnv (.agreeing "") untitledFirst := by
  refine threeDocs_recorded (fun d file hfile => ?_) (by decide)
  split_ifs at hfile ⊢ <;> simp_all [fileDoc, untitledDoc] <;> (subst hfile; decide)

/-- Everything comes back when the file is first. -/
theorem session_round_trip_file_first :
    (emptyEditor.loadSession uriEnv (.agreeing "") (fileFirst.saveSession uriEnv)).shown =
      fileFirst.shown :=
  (session_round_trip uriEnv (.agreeing "") fileFirst emptyEditor fileFirst_recorded
    emptyEditor_placed rfl rfl).mpr ⟨by decide, fun _ _ _ _ => rfl⟩

/-- The untitled document before the file does not come back. -/
theorem session_loses_untitled :
    Recorded uriEnv (.agreeing "") untitledFirst ∧ emptyEditor.Placed ∧
      emptyEditor.windows = [] ∧ uriEnv.autoSync = false ∧
      (emptyEditor.loadSession uriEnv (.agreeing "") (untitledFirst.saveSession uriEnv)).shown ≠
        untitledFirst.shown :=
  ⟨untitledFirst_recorded, emptyEditor_placed, rfl, rfl, by decide⟩

end Medit.Editor.MooEditor
