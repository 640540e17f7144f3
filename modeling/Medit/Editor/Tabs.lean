import Mathlib.Order.Nat
import Medit.Library.Bins
import Medit.Editor.Model

/-!
# Where the documents are

Each open document is in one window or outside windows. Saving and reloading leave the documents
where they are; opening and closing put some in and take some out.

## Main definitions

* `Placed` — no document and no window is there twice, and the numbers of new ones are unused.
* `SameTabs` — the documents are where they were.
* `Added`, `Closed` — one document has come into a window, some have gone from everywhere.

## Main results

* `SameTabs.placed`, `Added.placed`, `Closed.placed` — each of them keeps `Placed`.
* `doCloseDocs_closed`, `addNewDoc_added` — what the operations do in these terms.
-/

namespace Medit.Editor.MooEditor

open Function

variable {F N : Type} {env : Env F N} {a : Answers F} {e e' e'' : MooEditor F} {d w : ℕ}
  {docs docs' : List ℕ}

/-- No document and no window is there twice, and the numbers of new ones are unused. -/
structure Placed (e : MooEditor F) : Prop where
  docs_nodup : e.getDocs.Nodup
  windows_nodup : e.windows.Nodup
  docs_lt : ∀ d ∈ e.getDocs, d < e.nextDoc
  windows_lt : ∀ w ∈ e.windows, w < e.nextWindow

theorem getDocs_eq (e : MooEditor F) :
    e.getDocs = Bins.items e.windows (fun w => (e.window w).docs) e.windowless := rfl

theorem mem_getDocs :
    d ∈ e.getDocs ↔ (∃ w ∈ e.windows, d ∈ (e.window w).docs) ∨ d ∈ e.windowless :=
  Bins.mem_items

theorem mem_getDocs_of_window (hw : w ∈ e.windows) (hd : d ∈ (e.window w).docs) :
    d ∈ e.getDocs := mem_getDocs.mpr (.inl ⟨w, hw, hd⟩)

theorem Placed.getWindow_eq_some (h : e.Placed) :
    e.getWindow d = some w ↔ w ∈ e.windows ∧ d ∈ (e.window w).docs := by
  constructor
  · intro hw
    exact ⟨List.mem_of_find?_eq_some hw, by simpa using List.find?_some hw⟩
  · rintro ⟨hw, hd⟩
    cases hv : e.getWindow d with
    | none => simpa [hd] using List.find?_eq_none.mp hv w hw
    | some v =>
      have hv' := List.mem_of_find?_eq_some hv
      have hdv : d ∈ (e.window v).docs := by simpa using List.find?_some hv
      rw [Bins.bin_unique h.docs_nodup hw hv' hd hdv]

theorem getWindow_eq_none : e.getWindow d = none ↔ ∀ w ∈ e.windows, d ∉ (e.window w).docs := by
  simp [getWindow]

/-! ## Documents that stay where they are -/

/-- The documents are where they were. -/
structure SameTabs (e e' : MooEditor F) : Prop where
  windows : e'.windows = e.windows
  windowless : e'.windowless = e.windowless
  docs : ∀ w, (e'.window w).docs = (e.window w).docs
  nextWindow : e'.nextWindow = e.nextWindow
  nextDoc : e.nextDoc ≤ e'.nextDoc

namespace SameTabs

theorem refl (e : MooEditor F) : e.SameTabs e := ⟨rfl, rfl, fun _ => rfl, rfl, le_rfl⟩

theorem trans (h : e.SameTabs e') (h' : e'.SameTabs e'') : e.SameTabs e'' where
  windows := h'.windows.trans h.windows
  windowless := h'.windowless.trans h.windowless
  docs w := (h'.docs w).trans (h.docs w)
  nextWindow := h'.nextWindow.trans h.nextWindow
  nextDoc := h.nextDoc.trans h'.nextDoc

theorem getDocs (h : e.SameTabs e') : e'.getDocs = e.getDocs := by
  rw [getDocs_eq, getDocs_eq, h.windows, h.windowless]
  exact Bins.items_congr fun w _ => h.docs w

theorem getWindow (h : e.SameTabs e') (d : ℕ) : e'.getWindow d = e.getWindow d := by
  simp only [MooEditor.getWindow, h.windows, h.docs]

theorem placed (h : e.SameTabs e') (hp : e.Placed) : e'.Placed where
  docs_nodup := h.getDocs ▸ hp.docs_nodup
  windows_nodup := h.windows ▸ hp.windows_nodup
  docs_lt d hd := (hp.docs_lt d (h.getDocs ▸ hd)).trans_le h.nextDoc
  windows_lt w hw := h.nextWindow ▸ hp.windows_lt w (h.windows ▸ hw)

end SameTabs

theorem setDoc_sameTabs (e : MooEditor F) (d : ℕ) (doc : MooEdit F) :
    e.SameTabs (e.setDoc d doc) := ⟨rfl, rfl, fun _ => rfl, rfl, le_rfl⟩

theorem setActiveWindow_sameTabs (e : MooEditor F) (w : ℕ) :
    e.SameTabs (e.setActiveWindow w) := ⟨rfl, rfl, fun _ => rfl, rfl, le_rfl⟩

theorem newObject_sameTabs (env : Env F N) (e : MooEditor F) :
    e.SameTabs (e.newObject env).2 := ⟨rfl, rfl, fun _ => rfl, rfl, Nat.le_succ _⟩

theorem windowSetActiveDoc_sameTabs (e : MooEditor F) (w d : ℕ) :
    e.SameTabs (e.windowSetActiveDoc w d) := by
  unfold windowSetActiveDoc
  split_ifs
  · refine ⟨rfl, rfl, fun v => ?_, rfl, le_rfl⟩
    rcases eq_or_ne v w with rfl | hne
    · simp [setWindow]
    · simp [setWindow, hne]
  · exact .refl e

theorem setActiveDoc_sameTabs (e : MooEditor F) (d : ℕ) : e.SameTabs (e.setActiveDoc d) := by
  unfold setActiveDoc
  split
  · exact (setActiveWindow_sameTabs e _).trans (windowSetActiveDoc_sameTabs _ _ d)
  · exact .refl e

theorem showIn_sameTabs (e : MooEditor F) (window : Option ℕ) (d : ℕ) :
    e.SameTabs (e.showIn window d) := by
  cases window with
  | none => exact .refl e
  | some w => exact windowSetActiveDoc_sameTabs e w d

@[simp] theorem doc_setDoc_self (e : MooEditor F) (d : ℕ) (doc : MooEdit F) :
    (e.setDoc d doc).doc d = doc := update_self ..

theorem doc_setDoc_of_ne (e : MooEditor F) {d d' : ℕ} (h : d' ≠ d) (doc : MooEdit F) :
    (e.setDoc d doc).doc d' = e.doc d' := update_of_ne h ..

@[simp] theorem doc_windowSetActiveDoc (e : MooEditor F) (w d : ℕ) :
    (e.windowSetActiveDoc w d).doc = e.doc := by
  unfold windowSetActiveDoc
  split_ifs <;> rfl

@[simp] theorem doc_setActiveDoc (e : MooEditor F) (d : ℕ) : (e.setActiveDoc d).doc = e.doc := by
  unfold setActiveDoc
  split
  · exact doc_windowSetActiveDoc _ _ d
  · rfl

@[simp] theorem doc_showIn (e : MooEditor F) (window : Option ℕ) (d : ℕ) :
    (e.showIn window d).doc = e.doc := by
  cases window with
  | none => rfl
  | some w => exact doc_windowSetActiveDoc e w d

/-! ## Documents that come -/

/-- The document `d` has come into the window `w`. -/
structure Added (e e' : MooEditor F) (w d : ℕ) : Prop where
  windows : e'.windows = e.windows
  windowless : e'.windowless = e.windowless
  docs_self : (e'.window w).docs.Perm (d :: (e.window w).docs)
  docs_of_ne : ∀ v, v ≠ w → (e'.window v).docs = (e.window v).docs
  nextWindow : e'.nextWindow = e.nextWindow
  nextDoc : e'.nextDoc = e.nextDoc
  doc : e'.doc = e.doc

theorem insertAfter_perm (d : ℕ) {after : Option ℕ} (h : ∀ x ∈ after, x ∈ docs) :
    (insertAfter d after docs).Perm (d :: docs) := by
  cases after with
  | none => exact .refl _
  | some x =>
    have hlt : docs.idxOf x < docs.length := List.idxOf_lt_length_of_mem (h x rfl)
    exact List.perm_insertIdx d docs (by omega)

theorem insertDoc_added (e : MooEditor F) (w d : ℕ) : e.Added (e.insertDoc w d) w d where
  windows := rfl
  windowless := rfl
  docs_self := by
    simp only [insertDoc, setWindow, update_self]
    refine insertAfter_perm d fun x hx => ?_
    simpa using (Option.mem_filter_iff.mp hx).2
  docs_of_ne v hv := by simp [insertDoc, setWindow, hv]
  nextWindow := rfl
  nextDoc := rfl
  doc := rfl

namespace Added

theorem perm (h : e.Added e' w d) (hp : e.Placed) (hw : w ∈ e.windows) :
    e'.getDocs.Perm (d :: e.getDocs) := by
  rw [getDocs_eq, getDocs_eq, h.windows, h.windowless]
  exact Bins.perm_items_insert hp.windows_nodup hw h.docs_self h.docs_of_ne

theorem getDocs_of_notMem (h : e.Added e' w d) (hw : w ∉ e.windows) :
    e'.getDocs = e.getDocs := by
  rw [getDocs_eq, getDocs_eq, h.windows, h.windowless]
  exact Bins.items_insert_of_notMem hw h.docs_of_ne

theorem mem_getDocs (h : e.Added e' w d) (hp : e.Placed) {x : ℕ} (hx : x ∈ e'.getDocs) :
    x = d ∨ x ∈ e.getDocs := by
  by_cases hw : w ∈ e.windows
  · exact List.mem_cons.mp ((h.perm hp hw).mem_iff.mp hx)
  · exact .inr (h.getDocs_of_notMem hw ▸ hx)

theorem placed (h : e.Added e' w d) (hp : e.Placed) (hd : d ∉ e.getDocs) (hlt : d < e.nextDoc) :
    e'.Placed where
  docs_nodup := by
    by_cases hw : w ∈ e.windows
    · exact (h.perm hp hw).nodup_iff.mpr (List.nodup_cons.mpr ⟨hd, hp.docs_nodup⟩)
    · exact h.getDocs_of_notMem hw ▸ hp.docs_nodup
  windows_nodup := h.windows ▸ hp.windows_nodup
  docs_lt x hx := by
    rw [h.nextDoc]
    rcases h.mem_getDocs hp hx with rfl | hx
    · exact hlt
    · exact hp.docs_lt x hx
  windows_lt v hv := h.nextWindow ▸ hp.windows_lt v (h.windows ▸ hv)

end Added

theorem Placed.nextDoc_notMem (h : e.Placed) : e.nextDoc ∉ e.getDocs := fun hd =>
  lt_irrefl _ (h.docs_lt _ hd)

theorem newObject_added (env : Env F N) (e : MooEditor F) (w : ℕ) :
    (e.newObject env).2.Added (e.addNewDoc env w) w e.nextDoc := insertDoc_added _ w _

theorem addNewDoc_placed (hp : e.Placed) (w : ℕ) : (e.addNewDoc env w).Placed := by
  have hsame := newObject_sameTabs env e
  refine (newObject_added env e w).placed (hsame.placed hp) ?_ (Nat.lt_succ_self _)
  rw [hsame.getDocs]
  exact hp.nextDoc_notMem

theorem createWindow_getDocs (hp : e.Placed) : e.createWindow.2.getDocs = e.getDocs := by
  have hnew : e.nextWindow ∉ e.windows := fun hw => lt_irrefl _ (hp.windows_lt _ hw)
  rw [getDocs_eq, createWindow, Bins.items_concat_empty (by simp)]
  refine Bins.items_congr fun w hw => ?_
  have hne : w ≠ e.nextWindow := fun heq => hnew (heq ▸ hw)
  simp [hne]

theorem createWindow_placed (hp : e.Placed) : e.createWindow.2.Placed where
  docs_nodup := createWindow_getDocs hp ▸ hp.docs_nodup
  windows_nodup := by
    refine List.nodup_append.mpr ⟨hp.windows_nodup, by simp, ?_⟩
    intro v hv x hx
    have := hp.windows_lt v hv
    simp only [List.mem_singleton] at hx
    omega
  docs_lt d hd := hp.docs_lt d (createWindow_getDocs hp ▸ hd)
  windows_lt v hv := by
    simp only [createWindow, List.mem_append, List.mem_singleton] at hv ⊢
    rcases hv with hv | rfl
    · have := hp.windows_lt v hv
      omega
    · omega

/-! ## Documents that go -/

/-- The documents in `docs` have gone from wherever they were. -/
structure Closed (docs : List ℕ) (e e' : MooEditor F) : Prop where
  windows : e'.windows = e.windows
  windowless : e'.windowless = e.windowless.filter (· ∉ docs)
  docs_eq : ∀ w ∈ e.windows, (e'.window w).docs = (e.window w).docs.filter (· ∉ docs)
  nextWindow : e'.nextWindow = e.nextWindow
  nextDoc : e'.nextDoc = e.nextDoc
  doc : e'.doc = e.doc

namespace Closed

theorem nil (e : MooEditor F) : Closed [] e e := ⟨rfl, by simp, by simp, rfl, rfl, rfl⟩

theorem trans (h : Closed docs e e') (h' : Closed docs' e' e'') :
    Closed (docs ++ docs') e e'' where
  windows := h'.windows.trans h.windows
  windowless := by
    rw [h'.windowless, h.windowless, List.filter_filter]
    exact List.filter_congr fun x _ => by simp [Bool.and_comm]
  docs_eq w hw := by
    rw [h'.docs_eq w (h.windows ▸ hw), h.docs_eq w hw, List.filter_filter]
    exact List.filter_congr fun x _ => by simp [Bool.and_comm]
  nextWindow := h'.nextWindow.trans h.nextWindow
  nextDoc := h'.nextDoc.trans h.nextDoc
  doc := h'.doc.trans h.doc

theorem getDocs (h : Closed docs e e') : e'.getDocs = e.getDocs.filter (· ∉ docs) := by
  rw [getDocs_eq, getDocs_eq, h.windows, h.windowless]
  exact Bins.items_filter _ h.docs_eq

theorem placed (h : Closed docs e e') (hp : e.Placed) : e'.Placed where
  docs_nodup := h.getDocs ▸ hp.docs_nodup.filter _
  windows_nodup := h.windows ▸ hp.windows_nodup
  docs_lt d hd := by
    rw [h.getDocs] at hd
    exact h.nextDoc ▸ hp.docs_lt d (List.mem_of_mem_filter hd)
  windows_lt w hw := h.nextWindow ▸ hp.windows_lt w (h.windows ▸ hw)

end Closed

theorem doCloseDoc_closed (a : Answers F) (hp : e.Placed) (d : ℕ) :
    Closed [d] e (doCloseDoc a e d) := by
  have herase {l : List ℕ} (hl : l.Nodup) : l.erase d = l.filter (· ∉ [d]) := by
    rw [hl.erase_eq_filter]
    exact List.filter_congr fun x _ => by simp [Bool.beq_eq_decide_eq, bne]
  have hkeep {l : List ℕ} (hd : d ∉ l) : l.filter (· ∉ [d]) = l := by
    refine List.filter_eq_self.mpr fun x hx => ?_
    simp only [List.mem_singleton, decide_not, Bool.not_eq_eq_eq_not, Bool.not_true,
      decide_eq_false_iff_not]
    rintro rfl
    exact hd hx
  unfold doCloseDoc
  cases hw : e.getWindow d with
  | some w =>
    obtain ⟨hmem, hd⟩ := hp.getWindow_eq_some.mp hw
    refine ⟨rfl, (hkeep (Bins.notMem_loose hp.docs_nodup hmem hd)).symm, fun v hv => ?_,
      rfl, rfl, rfl⟩
    rcases eq_or_ne v w with rfl | hne
    · simp only [removeDoc, setWindow, update_self]
      exact herase (Bins.nodup_bin (f := fun w => (e.window w).docs) hp.docs_nodup hmem)
    · simp only [removeDoc, setWindow, update_of_ne hne]
      exact (hkeep fun hdv => hne (Bins.bin_unique hp.docs_nodup hv hmem hdv hd)).symm
  | none =>
    refine ⟨rfl, herase (Bins.nodup_loose hp.docs_nodup), fun v hv => ?_, rfl, rfl, rfl⟩
    exact (hkeep (getWindow_eq_none.mp hw v hv)).symm

theorem doCloseDocs_closed (a : Answers F) (hp : e.Placed) (docs : List ℕ) :
    Closed docs e (doCloseDocs a e docs) := by
  induction docs generalizing e with
  | nil => exact .nil e
  | cons d docs ih =>
    have hone := doCloseDoc_closed a hp d
    exact hone.trans (ih (hone.placed hp))

end Medit.Editor.MooEditor
