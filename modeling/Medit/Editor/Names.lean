import Medit.Editor.Close

/-!
# One document for each file

The opening path looks for a document that already shows a file; saving under a name does not.
Two open documents have the same normalized file name only after one has been saved under the
name of the other.

## Main definitions

* `Distinct` — the open documents have different names.
* `Request` — opening, new documents, saving, reloading, closing, and what happens in between.
* `Fresh` — no save of a request that goes through is under the name of another open document.

## Main results

* `Distinct.getDocForFile` — the document found for a file is the only one.
* `Request.distinct` — what a request with fresh names keeps.
* `run_names` — a run of such requests.
-/

namespace Medit.Editor.MooEditor

open Function

variable {F N : Type} {env : Env F N} {a : Answers F} {e e' : MooEditor F} {d w : ℕ}
  {docs : List ℕ}

/-- Each document is in one place, and no two open documents have the same normalized name. -/
structure Distinct (env : Env F N) (e : MooEditor F) : Prop extends e.Placed where
  unique : ∀ d ∈ e.getDocs, ∀ d' ∈ e.getDocs, ∀ n,
    e.normName env d = some n → e.normName env d' = some n → d = d'

/-- The document found for a file is the only open one with its name. -/
theorem Distinct.getDocForFile [DecidableEq N] (h : Distinct env e) (file : F) :
    e.getDocForFile env file = some d ↔
      d ∈ e.getDocs ∧ e.normName env d = some (env.normalizedName file) := by
  have hmem (x : ℕ) : x ∈ e.windowless ++ e.windows.flatMap (e.window · |>.docs) ↔
      x ∈ e.getDocs := by
    rw [getDocs, List.mem_append, List.mem_append, or_comm]
  constructor
  · intro hd
    exact ⟨(hmem d).mp (List.mem_of_find?_eq_some hd), by simpa using List.find?_some hd⟩
  · rintro ⟨hd, hname⟩
    cases hx : e.getDocForFile env file with
    | none => simpa [hname] using List.find?_eq_none.mp hx d ((hmem d).mpr hd)
    | some x =>
      have hx' := (hmem x).mp (List.mem_of_find?_eq_some hx)
      have hxn : e.normName env x = some (env.normalizedName file) := by
        simpa using List.find?_some hx
      rw [h.unique x hx' d hd _ hxn hname]

theorem getDocForFile_none [DecidableEq N] {file : F} (h : e.getDocForFile env file = none)
    (hd : d ∈ e.getDocs) : e.normName env d ≠ some (env.normalizedName file) := by
  have hd' : d ∈ e.windowless ++ e.windows.flatMap (e.window · |>.docs) := by
    rw [getDocs, List.mem_append] at hd
    exact List.mem_append.mpr hd.symm
  simpa using List.find?_eq_none.mp h d hd'

/-! ## Steps that keep the names apart -/

/-- Only `d` may have come, and only its file may have changed. -/
structure Within (d : ℕ) (e e' : MooEditor F) : Prop where
  placed : e'.Placed
  docs : ∀ x ∈ e'.getDocs, x = d ∨ x ∈ e.getDocs
  file : ∀ x, x ≠ d → (e'.doc x).file = (e.doc x).file

theorem normName_congr {x : ℕ} (h : (e'.doc x).file = (e.doc x).file) :
    e'.normName env x = e.normName env x := by
  rw [normName, normName, h]

/-- The name that one document gets is that of no other one. -/
theorem Distinct.within (h : Distinct env e) (hw : Within d e e')
    (hfresh : ∀ x ∈ e.getDocs, x ≠ d → ∀ n, e'.normName env d = some n →
      e.normName env x ≠ some n) : Distinct env e' where
  toPlaced := hw.placed
  unique x hx y hy n hnx hny := by
    by_contra hne
    have hclash {x y : ℕ} (hx : x = d) (hy : y ∈ e'.getDocs) (hne : x ≠ y)
        (hnx : e'.normName env x = some n) (hny : e'.normName env y = some n) : False := by
      subst hx
      rw [normName_congr (hw.file y hne.symm)] at hny
      exact hfresh y ((hw.docs y hy).resolve_left hne.symm) hne.symm n hnx hny
    rcases eq_or_ne x d with hxd | hxd
    · exact hclash hxd hy hne hnx hny
    rcases eq_or_ne y d with hyd | hyd
    · exact hclash hyd hx (Ne.symm hne) hny hnx
    rw [normName_congr (hw.file x hxd)] at hnx
    rw [normName_congr (hw.file y hyd)] at hny
    exact hne (h.unique x ((hw.docs x hx).resolve_left hxd) y ((hw.docs y hy).resolve_left hyd)
      n hnx hny)

/-- No document comes, and those that stay keep their names. -/
theorem Distinct.shrink (h : Distinct env e) (hp : e'.Placed)
    (hdocs : ∀ x ∈ e'.getDocs, x ∈ e.getDocs ∧ (e'.doc x).file = (e.doc x).file) :
    Distinct env e' where
  toPlaced := hp
  unique x hx y hy n hnx hny := by
    rw [normName_congr (hdocs x hx).2] at hnx
    rw [normName_congr (hdocs y hy).2] at hny
    exact h.unique x (hdocs x hx).1 y (hdocs y hy).1 n hnx hny

/-- Documents stay where they are and keep their files. -/
theorem Distinct.sameTabs (h : Distinct env e) (hs : e.SameTabs e')
    (hdoc : ∀ x ∈ e.getDocs, (e'.doc x).file = (e.doc x).file) : Distinct env e' :=
  h.shrink (hs.placed h.toPlaced) fun x hx => by
    rw [hs.getDocs] at hx
    exact ⟨hx, hdoc x hx⟩

/-- A new document without a file. -/
theorem Distinct.addNewDoc (h : Distinct env e) (w : ℕ) : Distinct env (e.addNewDoc env w) := by
  have hsame := newObject_sameTabs env e
  have hadd := newObject_added env e w
  have hwithin : Within e.nextDoc e (e.addNewDoc env w) :=
    ⟨addNewDoc_placed h.toPlaced w, fun x hx => by
      have := hadd.mem_getDocs (hsame.placed h.toPlaced) hx
      rwa [hsame.getDocs] at this, fun x hx => by rw [addNewDoc_doc_of_ne e w hx]⟩
  refine h.within hwithin fun x _ _ n hn => ?_
  rw [normName, hadd.doc] at hn
  simp [newObject] at hn

theorem Distinct.closed (h : Distinct env e) (hc : Closed docs e e') : Distinct env e' :=
  h.shrink (hc.placed h.toPlaced) fun x hx => by
    rw [hc.getDocs] at hx
    exact ⟨List.mem_of_mem_filter hx, by rw [hc.doc]⟩

/-! ## Saving -/

/-- Whether a save goes through. -/
def accepts (a : Answers F) (d : ℕ) (file : F) (encoding : Option String) : Bool :=
  a.beforeSave d && (written a d file encoding).isSome

/-- No other open document has the name that a document is saved under, if it is. -/
def FreshSaveAs (env : Env F N) (a : Answers F) (e : MooEditor F) (d : ℕ)
    (info : Option (F × Option String)) : Prop :=
  ∀ target ∈ saveAsTarget a e d info, (e.doc d).busy = false → accepts a d target.1 target.2 →
    ∀ x ∈ e.getDocs, x ≠ d → e.normName env x ≠ some (env.normalizedName target.1)

/-- The same for saving: an untitled document is saved under the name from the dialog. -/
def FreshSave (env : Env F N) (a : Answers F) (e : MooEditor F) (d : ℕ) : Prop :=
  (e.doc d).isUntitled → FreshSaveAs env a e d none

/-- The same for documents that are saved one after the other. -/
def FreshSaves (env : Env F N) (a : Answers F) (e : MooEditor F) : List ℕ → Prop
  | [] => True
  | d :: docs => FreshSave env a e d ∧
      ((e.save env a d).1 → FreshSaves env a (e.save env a d).2 docs)

theorem willSave_file (a : Answers F) (e : MooEditor F) (d x : ℕ) :
    ((e.willSave a d).doc x).file = (e.doc x).file := by
  unfold willSave
  split
  · rcases eq_or_ne x d with rfl | hne
    · rw [doc_setDoc_self]
    · rw [doc_setDoc_of_ne e hne]
  · rfl

theorem doSave_of_accepts {file : F} {encoding : Option String}
    (h : accepts a d file encoding) :
    ((e.doSave a d file encoding).2.doc d).file = some file := by
  obtain ⟨hbefore, hwritten⟩ := Bool.and_eq_true_iff.mp h
  obtain ⟨enc, henc⟩ := Option.isSome_iff_exists.mp hwritten
  simp [doSave, hbefore, henc, fileSaved]

theorem doSave_of_not_accepts {file : F} {encoding : Option String}
    (h : accepts a d file encoding = false) (x : ℕ) :
    ((e.doSave a d file encoding).2.doc x).file = (e.doc x).file := by
  unfold doSave
  split_ifs with hbefore
  · have hnone : written a d file encoding = none := by
      simpa [accepts, hbefore] using h
    rw [hnone]
    exact willSave_file a e d x
  · rfl

theorem Touches.within (h : Touches [d] e e') (hp : e.Placed) : Within d e e' where
  placed := h.sameTabs.placed hp
  docs x hx := .inr (h.sameTabs.getDocs ▸ hx)
  file x hx := by rw [h.doc x (by simpa using hx)]

theorem Distinct.doSave (h : Distinct env e) {file : F} {encoding : Option String}
    (hfresh : accepts a d file encoding → ∀ x ∈ e.getDocs, x ≠ d →
      e.normName env x ≠ some (env.normalizedName file)) :
    Distinct env (e.doSave a d file encoding).2 := by
  have htouch := (doSave_savesOne (a := a) e d file encoding).1
  cases hacc : accepts a d file encoding with
  | true =>
    refine h.within (htouch.within h.toPlaced) fun x hx hne n hn => ?_
    rw [normName, doSave_of_accepts hacc] at hn
    obtain rfl : env.normalizedName file = n := by simpa using hn
    exact hfresh hacc x hx hne
  | false => exact h.sameTabs htouch.sameTabs fun x _ => doSave_of_not_accepts hacc x

theorem Distinct.saveAs (h : Distinct env e) {info : Option (F × Option String)}
    (hfresh : FreshSaveAs env a e d info) : Distinct env (e.saveAs a d info).2 := by
  unfold MooEditor.saveAs
  split
  · exact h
  · rename_i hbusy
    cases ht : saveAsTarget a e d info with
    | none => exact h
    | some target => exact h.doSave (hfresh target ht (by simpa using hbusy))

/-- Saving a document that has a file keeps its name, which no other one has. -/
theorem Distinct.save (h : Distinct env e) (hfresh : FreshSave env a e d) :
    Distinct env (e.save env a d).2 := by
  by_cases hd : d ∈ e.getDocs
  swap
  · obtain ⟨hsame, hdoc⟩ := (save_savesOne env a e d).1
    exact h.sameTabs hsame fun x hx => by rw [hdoc x (by rintro hxd; simp_all)]
  unfold MooEditor.save
  split
  · exact h
  · cases hfile : (e.doc d).file with
    | none => exact h.saveAs (hfresh (by simp [MooEdit.isUntitled, hfile]))
    | some file =>
      dsimp only
      split
      · exact h
      · refine h.doSave fun _ x hx hne hn => hne ?_
        exact h.unique x hx d hd _ hn (by rw [normName, hfile]; rfl)

theorem Distinct.saveDocs (h : Distinct env e) (hfresh : FreshSaves env a e docs) :
    Distinct env (e.saveDocs env a docs).2.1 := by
  induction docs generalizing e with
  | nil => exact h
  | cons d docs ih =>
    have hone := h.save hfresh.1
    rw [saveDocs_cons]
    split_ifs with hok
    · exact ih hone (hfresh.2 hok)
    · exact hone

/-! ## Closing -/

/-- The names of the documents saved when the user is asked about them are fresh. -/
def FreshAsk (env : Env F N) (a : Answers F) (e : MooEditor F) : List ℕ → Prop
  | [] => True
  | [d] => a.saveChanges d = .save → FreshSave env a e d
  | modified => a.saveMultiple modified = .save → FreshSaves env a e (modified.filter a.toSave)

/-- The same for `moo_editor_close_docs`. -/
def FreshCloseDocs (env : Env F N) (a : Answers F) (e : MooEditor F) (docs : List ℕ) : Prop :=
  e.findBusy docs = none → FreshAsk env a e (e.findModified docs)

/-- The same for `moo_editor_close_window`. -/
def FreshCloseWindow (env : Env F N) (a : Answers F) (e : MooEditor F) (w : ℕ) : Prop :=
  w ∈ e.windows → a.beforeClose w → FreshCloseDocs env a e (e.window w).docs

/-- The same for `_moo_editor_close_all`. -/
def FreshCloseWindows (env : Env F N) (a : Answers F) (e : MooEditor F) : List ℕ → Prop
  | [] => True
  | w :: windows => FreshCloseWindow env a e w ∧
      ((e.closeWindow env a w).1 → FreshCloseWindows env a (e.closeWindow env a w).2.1 windows)

theorem Distinct.showIn (h : Distinct env e) (window : Option ℕ) (d : ℕ) :
    Distinct env (e.showIn window d) :=
  h.sameTabs (showIn_sameTabs e window d) fun x _ => by rw [doc_showIn]

theorem FreshSave.showIn (h : FreshSave env a e d) (window : Option ℕ) :
    FreshSave env a (e.showIn window d) d := by
  unfold FreshSave FreshSaveAs saveAsTarget at h ⊢
  simp only [normName, doc_showIn, (showIn_sameTabs e window d).getDocs] at h ⊢
  exact h

theorem Distinct.askOne (h : Distinct env e)
    (hfresh : a.saveChanges d = .save → FreshSave env a e d) :
    Distinct env (e.askOne env a d).2.1 := by
  unfold MooEditor.askOne
  split
  · rename_i hsave
    exact h.saveDocs ⟨hfresh hsave, fun _ => trivial⟩
  · exact h
  · exact h

theorem Distinct.askSeveral (h : Distinct env e)
    (hfresh : a.saveMultiple docs = .save → FreshSaves env a e (docs.filter a.toSave)) :
    Distinct env (e.askSeveral env a docs).2.1 := by
  unfold MooEditor.askSeveral
  split
  · rename_i hsave
    exact h.saveDocs (hfresh hsave)
  · exact h
  · exact h

theorem Distinct.askToSave (h : Distinct env e) (window : ℕ → Option ℕ)
    (hfresh : FreshAsk env a e docs) : Distinct env (e.askToSave env a window docs).2.1 := by
  unfold FreshAsk at hfresh
  unfold MooEditor.askToSave
  rcases docs with _ | ⟨d, _ | ⟨d', docs⟩⟩
  · exact h
  · exact (h.showIn _ d).askOne fun hsave => (hfresh hsave).showIn _
  · exact h.askSeveral hfresh

theorem Distinct.beforeCloseWindow (h : Distinct env e) (w : ℕ)
    (hfresh : FreshCloseDocs env a e (e.window w).docs) :
    Distinct env (e.beforeCloseWindow env a w).2.1 := by
  unfold MooEditor.beforeCloseWindow
  cases hb : e.findBusy (e.window w).docs with
  | some busy => exact h.sameTabs (setActiveDoc_sameTabs e busy) fun x _ => by simp
  | none => exact h.askToSave _ (hfresh hb)

theorem Distinct.refillWindow (h : Distinct env e) (window : Option ℕ) :
    Distinct env (e.refillWindow env window) := by
  unfold MooEditor.refillWindow
  split
  · split_ifs
    · exact h.addNewDoc _
    · exact h
  · exact h

theorem Distinct.closeDocs (h : Distinct env e) (hfresh : FreshCloseDocs env a e docs) :
    Distinct env (e.closeDocs env a docs).2.1 := by
  unfold MooEditor.closeDocs closeDocsReal
  cases docs with
  | nil => exact h
  | cons first docs =>
    dsimp only
    cases hb : e.findBusy (first :: docs) with
    | some busy => exact h.sameTabs (setActiveDoc_sameTabs e busy) fun x _ => by simp
    | none =>
      have hask := h.askToSave e.getWindow (hfresh hb)
      rcases hr : e.askToSave env a e.getWindow (e.findModified (first :: docs))
        with ⟨_ | _, e', notices⟩
      · rw [hr] at hask
        exact hask
      · rw [hr] at hask
        exact (hask.closed (doCloseDocs_closed a hask.toPlaced _)).refillWindow _

theorem Distinct.doCloseWindow (h : Distinct env e) (hw : w ∈ e.windows) :
    Distinct env (e.doCloseWindow a w) :=
  h.shrink (doCloseWindow_placed a h.toPlaced hw) fun x hx => by
    rw [doCloseWindow_getDocs a h.toPlaced hw] at hx
    exact ⟨List.mem_of_mem_filter hx, by rw [doCloseWindow_doc a h.toPlaced]⟩

theorem Distinct.closeWindow (h : Distinct env e) (w : ℕ)
    (hfresh : FreshCloseWindow env a e w) : Distinct env (e.closeWindow env a w).2.1 := by
  unfold MooEditor.closeWindow
  split_ifs with hw hc
  · have hask := h.beforeCloseWindow w (hfresh hw hc)
    have hsame := (beforeCloseWindow_asked env a e w).touches.sameTabs
    rcases hr : e.beforeCloseWindow env a w with ⟨_ | _, e', notices⟩
    · rw [hr] at hask
      exact hask
    · rw [hr] at hask hsame
      exact hask.doCloseWindow (hsame.windows ▸ hw)
  · exact h
  · exact h

theorem Distinct.closeWindows (h : Distinct env e) (windows : List ℕ)
    (hfresh : FreshCloseWindows env a e windows) :
    Distinct env (e.closeWindows env a windows).2.1 := by
  induction windows generalizing e with
  | nil => exact h
  | cons w windows ih =>
    have hone := h.closeWindow w hfresh.1
    rw [closeWindows_cons]
    split_ifs with hok
    · exact ih hone (hfresh.2 hok)
    · exact hone

/-! ## Opening -/

/-- A document read from a file shows it; if that fails nothing happens. -/
theorem editLoadFile_spec (e : MooEditor F) (d : ℕ) (file : F) (encoding cached : Option String) :
    Touches [d] e (e.editLoadFile a d file encoding cached).2 ∧
      ((e.editLoadFile a d file encoding cached).1 = true →
        ((e.editLoadFile a d file encoding cached).2.doc d).file = some file) ∧
      ((e.editLoadFile a d file encoding cached).1 = false →
        (e.editLoadFile a d file encoding cached).2 = e) := by
  unfold editLoadFile
  split
  · exact ⟨.refl _ e, by simp, by simp⟩
  · split
    · exact ⟨setDoc_touches e d _, by simp, by simp⟩
    · exact ⟨.refl _ e, by simp, by simp⟩

theorem fillDoc_spec (env : Env F N) (a : Answers F) (e : MooEditor F) (d : ℕ) (info : OpenInfo F) :
    Touches [d] e (e.fillDoc env a d info).2 ∧
      ((e.fillDoc env a d info).1 = true →
        ((e.fillDoc env a d info).2.doc d).file = some info.file) ∧
      ((e.fillDoc env a d info).1 = false → (e.fillDoc env a d info).2 = e) := by
  unfold fillDoc
  split
  · exact ⟨setDoc_touches e d _, by simp, by simp⟩
  · exact editLoadFile_spec e d _ _ _

theorem Distinct.editReloadFile (h : Distinct env e) (d : ℕ) (encoding : Option String) :
    Distinct env (e.editReloadFile a d encoding).2 := by
  unfold MooEditor.editReloadFile
  cases hfile : (e.doc d).file with
  | none => exact h
  | some file =>
    dsimp only
    obtain ⟨htouch, htrue, hfalse⟩ := editLoadFile_spec (a := a) e d file
      (some (encoding.getD (e.doc d).encoding)) none
    generalize e.editLoadFile a d file _ none = r at htouch htrue hfalse ⊢
    refine h.sameTabs htouch.sameTabs fun x _ => ?_
    rcases eq_or_ne x d with rfl | hne
    · cases hr : r.1 with
      | true => rw [htrue hr, hfile]
      | false => rw [hfalse hr]
    · rw [htouch.doc x (by simpa using hne)]

theorem Distinct.reload (h : Distinct env e) (d : ℕ) (encoding : Option String) :
    Distinct env (e.reload env a d encoding).2 := by
  unfold MooEditor.reload
  split_ifs
  · exact h
  · exact h
  · exact h.editReloadFile d encoding

theorem Distinct.setActiveDoc (h : Distinct env e) (d : ℕ) : Distinct env (e.setActiveDoc d) :=
  h.sameTabs (setActiveDoc_sameTabs e d) fun x _ => by simp

theorem Distinct.createWindow (h : Distinct env e) : Distinct env e.createWindow.2 :=
  h.shrink (createWindow_placed h.toPlaced) fun x hx => by
    rw [createWindow_getDocs h.toPlaced] at hx
    exact ⟨hx, rfl⟩

theorem Distinct.targetWindow (h : Distinct env e) (window : Option ℕ) (newWindow : Bool) :
    Distinct env (e.targetWindow window newWindow).2 ∧
      (e.targetWindow window newWindow).2.getDocs = e.getDocs ∧
      (e.targetWindow window newWindow).2.doc = e.doc ∧
      (e.targetWindow window newWindow).2.nextDoc = e.nextDoc := by
  unfold MooEditor.targetWindow
  split
  · split_ifs
    · exact ⟨h.createWindow, createWindow_getDocs h.toPlaced, rfl, rfl⟩
    · exact ⟨h, rfl, rfl, rfl⟩
  · exact ⟨h.createWindow, createWindow_getDocs h.toPlaced, rfl, rfl⟩

/-- A document that is not open comes with a name that no open one has. -/
theorem Distinct.insertDoc (h : Distinct env e) (w : ℕ) (hd : d ∉ e.getDocs)
    (hlt : d < e.nextDoc) (hfresh : ∀ x ∈ e.getDocs, ∀ n, e.normName env d = some n →
      e.normName env x ≠ some n) : Distinct env (e.insertDoc w d) := by
  have hadd := insertDoc_added e w d
  have hwithin : Within d e (e.insertDoc w d) :=
    ⟨hadd.placed h.toPlaced hd hlt, fun x hx => hadd.mem_getDocs h.toPlaced hx,
      fun x _ => by rw [hadd.doc]⟩
  exact h.within hwithin fun x hx _ => hfresh x hx

theorem Distinct.loadNewObject (h : Distinct env e) (info : OpenInfo F) (window : Option ℕ)
    (hfresh : ∀ x ∈ e.getDocs, e.normName env x ≠ some (env.normalizedName info.file)) :
    Distinct env (e.loadNewObject env a info window).2 := by
  have hsame := newObject_sameTabs env e
  have hne {x : ℕ} (hx : x ∈ e.getDocs) : x ≠ e.nextDoc := fun heq =>
    h.nextDoc_notMem (heq ▸ hx)
  have hnew {x : ℕ} (hx : x ≠ e.nextDoc) : (e.newObject env).2.doc x = e.doc x :=
    update_of_ne hx ..
  obtain ⟨htouch, htrue, hfalse⟩ :=
    fillDoc_spec env a (e.newObject env).2 (e.newObject env).1 info
  have hall := hsame.trans htouch.sameTabs
  have hdoc {x : ℕ} (hx : x ≠ e.nextDoc) :
      (((e.newObject env).2.fillDoc env a (e.newObject env).1 info).2.doc x) = e.doc x := by
    rw [htouch.doc x (by simpa [newObject] using hx), hnew hx]
  have hfilled := h.sameTabs hall fun x hx => by rw [hdoc (hne hx)]
  unfold MooEditor.loadNewObject
  rcases hr : (e.newObject env).2.fillDoc env a (e.newObject env).1 info with ⟨_ | _, e'⟩
  · rw [hr] at hfilled
    exact hfilled
  · rw [hr] at htrue hall hdoc hfilled htouch
    dsimp only at htrue hall hdoc hfilled htouch ⊢
    obtain ⟨hdist, hdocs, hdoc', hnext⟩ := hfilled.targetWindow window info.newWindow
    refine (hdist.insertDoc _ ?_ ?_ fun x hx n hn => ?_).setActiveDoc _
    · rw [hdocs, hall.getDocs]
      exact h.nextDoc_notMem
    · rw [hnext]
      exact htouch.sameTabs.nextDoc
    · rw [hdocs, hall.getDocs] at hx
      rw [normName, hdoc', htrue rfl] at hn
      obtain rfl : env.normalizedName info.file = n := by simpa using hn
      rw [normName, hdoc', hdoc (hne hx)]
      exact hfresh x hx

theorem Distinct.fillDoc (h : Distinct env e) (d : ℕ) (info : OpenInfo F)
    (hfresh : ∀ x ∈ e.getDocs, e.normName env x ≠ some (env.normalizedName info.file)) :
    Distinct env (e.fillDoc env a d info).2 := by
  obtain ⟨htouch, htrue, hfalse⟩ := fillDoc_spec env a e d info
  cases hr : (e.fillDoc env a d info).1 with
  | true =>
    refine h.within (htouch.within h.toPlaced) fun x hx _ n hn => ?_
    rw [normName, htrue hr] at hn
    obtain rfl : env.normalizedName info.file = n := by simpa using hn
    exact hfresh x hx
  | false =>
    rw [hfalse hr]
    exact h

theorem Distinct.loadFile [DecidableEq N] (h : Distinct env e) (info : OpenInfo F)
    (window : Option ℕ) : Distinct env (e.loadFile env a info window).2 := by
  unfold MooEditor.loadFile
  split
  swap
  · exact h
  cases hfound : e.getDocForFile env info.file with
  | some d =>
    have hre := h.editReloadFile (a := a) d info.encoding
    dsimp only [loadOpenFile]
    split_ifs
    · generalize e.editReloadFile a d info.encoding = r at hre ⊢
      obtain ⟨_ | _, e'⟩ := r
      · exact hre
      · exact hre.setActiveDoc d
    · exact h.setActiveDoc d
  | none =>
    have hfresh := fun x hx => getDocForFile_none hfound (d := x) hx
    dsimp only [loadNewFile]
    split
    · rename_i d _
      have hfill := h.fillDoc (a := a) d info hfresh
      generalize e.fillDoc env a d info = r at hfill ⊢
      obtain ⟨_ | _, e'⟩ := r
      · exact hfill
      · exact hfill.setActiveDoc d
    · exact h.loadNewObject info _ hfresh

theorem Distinct.openFilesLoop [DecidableEq N] (h : Distinct env e) (window : Option ℕ)
    (files : List (OpenInfo F × Answers F)) (front : Option ℕ) :
    Distinct env (e.openFilesLoop env window files front).2.2 := by
  induction files generalizing e window front with
  | nil => exact h
  | cons entry files ih =>
    obtain ⟨info, a⟩ := entry
    have hone := h.loadFile (a := a) info (window.or e.getTopWindow)
    unfold MooEditor.openFilesLoop
    generalize e.loadFile env a info (window.or e.getTopWindow) = r at hone ⊢
    obtain ⟨_ | d, e'⟩ := r
    · exact hone
    · exact ih hone _ _

theorem Distinct.openFiles [DecidableEq N] (h : Distinct env e) (window : Option ℕ)
    (files : List (OpenInfo F × Answers F)) : Distinct env (e.openFiles env window files).2 := by
  have hloop := h.openFilesLoop window files none
  unfold MooEditor.openFiles
  generalize e.openFilesLoop env window files none = r at hloop ⊢
  obtain ⟨ok, _ | d, e'⟩ := r
  · exact hloop
  · exact hloop.setActiveDoc d

theorem Distinct.newDocIn (h : Distinct env e) (window : Option ℕ) :
    Distinct env (e.newDocIn env window).2 := by
  refine Distinct.addNewDoc ?_ _
  unfold newDocWindow
  split
  · exact h
  · unfold MooEditor.newWindow
    split_ifs
    · exact h.createWindow
    · exact h.createWindow.addNewDoc _

/-- The names are fresh when a new document is saved at once, and when it is closed again. -/
def FreshNewDoc (env : Env F N) (saving closing : Answers F) (e : MooEditor F)
    (window : Option ℕ) : Prop :=
  env.autoSync →
    FreshSaveAs env saving (e.newDocIn env window).2 (e.newDocIn env window).1 none ∧
      (((e.newDocIn env window).2.saveAs saving (e.newDocIn env window).1 none).1 = false →
        FreshCloseDocs env closing
          ((e.newDocIn env window).2.saveAs saving (e.newDocIn env window).1 none).2
          [(e.newDocIn env window).1])

theorem Distinct.newDoc {saving closing : Answers F} (h : Distinct env e) (window : Option ℕ)
    (hfresh : FreshNewDoc env saving closing e window) :
    Distinct env (e.newDoc env saving closing window).2 := by
  have hin := h.newDocIn window
  unfold MooEditor.newDoc
  split_ifs with hsync
  · obtain ⟨hsave, hclose⟩ := hfresh hsync
    have hsaved := hin.saveAs hsave
    generalize (e.newDocIn env window).2.saveAs saving (e.newDocIn env window).1 none = r
      at hsaved hclose ⊢
    obtain ⟨_ | _, e'⟩ := r
    · exact hsaved.closeDocs (hclose rfl)
    · exact hsaved
  · exact hin

/-! ## Runs of requests -/

/-- What is asked of the editor, and what happens to its documents in between. -/
inductive Request (F : Type)
  | openFiles (window : Option ℕ) (files : List (OpenInfo F × Answers F))
  | newDoc (window : Option ℕ) (saving closing : Answers F)
  | save (d : ℕ) (a : Answers F)
  | saveAs (d : ℕ) (info : Option (F × Option String)) (a : Answers F)
  | reload (d : ℕ) (encoding : Option String) (a : Answers F)
  | close (r : CloseRequest F)
  /-- The user turns to a document. -/
  | activate (d : ℕ)
  /-- Anything of a document changes but its file, as it does when the user edits it. -/
  | change (d : ℕ) (doc : MooEdit F)

namespace Request

/-- The editor after a request. -/
def result [DecidableEq N] (env : Env F N) (e : MooEditor F) : Request F → MooEditor F
  | openFiles window files => (e.openFiles env window files).2
  | newDoc window saving closing => (e.newDoc env saving closing window).2
  | save d a => (e.save env a d).2
  | saveAs d info a => (e.saveAs a d info).2
  | reload d encoding a => (e.reload env a d encoding).2
  | close r => r.result env e
  | activate d => e.setActiveDoc d
  | change d doc => e.setDoc d { doc with file := (e.doc d).file }

/-- No save of a request that goes through is under the name of another open document. -/
def Fresh (env : Env F N) (e : MooEditor F) : Request F → Prop
  | newDoc window saving closing => FreshNewDoc env saving closing e window
  | save d a => FreshSave env a e d
  | saveAs d info a => FreshSaveAs env a e d info
  | close (.closeDocs docs a) => FreshCloseDocs env a e docs
  | close (.closeWindow w a) => FreshCloseWindow env a e w
  | close (.closeAll a) => FreshCloseWindows env a e e.windows
  | _ => True

/-- One request keeps the names apart. -/
theorem distinct [DecidableEq N] {r : Request F} (h : Distinct env e) (hfresh : r.Fresh env e) :
    Distinct env (r.result env e) := by
  cases r with
  | openFiles window files => exact h.openFiles window files
  | newDoc window saving closing => exact h.newDoc window hfresh
  | save d a => exact h.save hfresh
  | saveAs d info a => exact h.saveAs hfresh
  | reload d encoding a => exact h.reload d encoding
  | close r =>
    cases r with
    | closeDocs docs a => exact h.closeDocs hfresh
    | closeWindow w a => exact h.closeWindow w hfresh
    | closeAll a => exact h.closeWindows e.windows hfresh
  | activate d => exact h.setActiveDoc d
  | change d doc =>
    refine h.sameTabs (setDoc_sameTabs e d _) fun x _ => ?_
    rcases eq_or_ne x d with rfl | hne
    · rw [result, doc_setDoc_self]
    · rw [result, doc_setDoc_of_ne e hne]

end Request

/-- The editor after a run of requests. -/
def runRequests [DecidableEq N] (env : Env F N) (e : MooEditor F) (rs : List (Request F)) :
    MooEditor F := rs.foldl (fun e r => r.result env e) e

/-- The names are fresh at each request of a run. -/
def FreshRun [DecidableEq N] (env : Env F N) (e : MooEditor F) : List (Request F) → Prop
  | [] => True
  | r :: rs => r.Fresh env e ∧ FreshRun env (r.result env e) rs

theorem run_distinct [DecidableEq N] {rs : List (Request F)} (h : Distinct env e)
    (hfresh : FreshRun env e rs) :
    ∀ pre post, rs = pre ++ post → Distinct env (runRequests env e pre) := by
  induction rs generalizing e with
  | nil =>
    intro pre post hsplit
    obtain ⟨rfl, rfl⟩ := List.append_eq_nil_iff.mp hsplit.symm
    exact h
  | cons r rs ih =>
    intro pre post hsplit
    cases pre with
    | nil => exact h
    | cons r' pre =>
      obtain ⟨rfl, hrest⟩ := List.cons.inj hsplit
      exact ih (Request.distinct h hfresh.1) hfresh.2 pre post hrest

section Decidable

variable [DecidableEq N]

instance (env : Env F N) (a : Answers F) (e : MooEditor F) (d : ℕ)
    (info : Option (F × Option String)) : Decidable (FreshSaveAs env a e d info) :=
  inferInstanceAs (Decidable (∀ target ∈ saveAsTarget a e d info, _ → _ → _))

instance (env : Env F N) (a : Answers F) (e : MooEditor F) (d : ℕ) :
    Decidable (FreshSave env a e d) := inferInstanceAs (Decidable (_ → _))

instance decidableFreshSaves (env : Env F N) (a : Answers F) :
    (e : MooEditor F) → (docs : List ℕ) → Decidable (FreshSaves env a e docs)
  | _, [] => isTrue trivial
  | e, d :: docs =>
    have : Decidable (FreshSaves env a (e.save env a d).2 docs) :=
      decidableFreshSaves env a _ docs
    inferInstanceAs (Decidable (_ ∧ (_ → _)))

instance (env : Env F N) (a : Answers F) (e : MooEditor F) :
    (docs : List ℕ) → Decidable (FreshAsk env a e docs)
  | [] => isTrue trivial
  | [_] => inferInstanceAs (Decidable (_ → _))
  | _ :: _ :: _ => inferInstanceAs (Decidable (_ → _))

instance (env : Env F N) (a : Answers F) (e : MooEditor F) (docs : List ℕ) :
    Decidable (FreshCloseDocs env a e docs) := inferInstanceAs (Decidable (_ → _))

instance (env : Env F N) (a : Answers F) (e : MooEditor F) (w : ℕ) :
    Decidable (FreshCloseWindow env a e w) := inferInstanceAs (Decidable (_ → _ → _))

instance decidableFreshCloseWindows (env : Env F N) (a : Answers F) :
    (e : MooEditor F) → (windows : List ℕ) → Decidable (FreshCloseWindows env a e windows)
  | _, [] => isTrue trivial
  | e, w :: windows =>
    have : Decidable (FreshCloseWindows env a (e.closeWindow env a w).2.1 windows) :=
      decidableFreshCloseWindows env a _ windows
    inferInstanceAs (Decidable (_ ∧ (_ → _)))

instance (env : Env F N) (saving closing : Answers F) (e : MooEditor F) (window : Option ℕ) :
    Decidable (FreshNewDoc env saving closing e window) :=
  inferInstanceAs (Decidable (_ → _ ∧ (_ → _)))

instance (env : Env F N) (e : MooEditor F) (r : Request F) : Decidable (r.Fresh env e) :=
  match r with
  | .openFiles _ _ => isTrue trivial
  | .newDoc window saving closing =>
    inferInstanceAs (Decidable (FreshNewDoc env saving closing e window))
  | .save d a => inferInstanceAs (Decidable (FreshSave env a e d))
  | .saveAs d info a => inferInstanceAs (Decidable (FreshSaveAs env a e d info))
  | .reload _ _ _ => isTrue trivial
  | .close (.closeDocs docs a) => inferInstanceAs (Decidable (FreshCloseDocs env a e docs))
  | .close (.closeWindow w a) => inferInstanceAs (Decidable (FreshCloseWindow env a e w))
  | .close (.closeAll a) => inferInstanceAs (Decidable (FreshCloseWindows env a e e.windows))
  | .activate _ => isTrue trivial
  | .change _ _ => isTrue trivial

instance decidableFreshRun (env : Env F N) :
    (e : MooEditor F) → (rs : List (Request F)) → Decidable (FreshRun env e rs)
  | _, [] => isTrue trivial
  | e, r :: rs =>
    have : Decidable (FreshRun env (r.result env e) rs) := decidableFreshRun env _ rs
    inferInstanceAs (Decidable (_ ∧ _))

end Decidable

/-- In a run of requests no two open documents have the same normalized file name, and the
document found for a file is the only one that shows it, as long as no save that goes through is
under the name of another open document. -/
theorem run_names [DecidableEq N] (env : Env F N) (e : MooEditor F) (rs : List (Request F))
    (h : Distinct env e) (hfresh : FreshRun env e rs) (pre post : List (Request F))
    (hsplit : rs = pre ++ post) :
    Distinct env (runRequests env e pre) ∧
      ∀ file d, (runRequests env e pre).getDocForFile env file = some d ↔
        d ∈ (runRequests env e pre).getDocs ∧
          (runRequests env e pre).normName env d = some (env.normalizedName file) := by
  have hpre := run_distinct h hfresh pre post hsplit
  exact ⟨hpre, fun file d => hpre.getDocForFile file⟩

theorem twoWindows_distinct : Distinct plainEnv twoWindows where
  toPlaced := twoWindows_placed
  unique d _ d' _ n hn hn' := by
    simp only [normName, twoWindows, plainEnv, Option.map_some, Option.some.injEq, id_eq]
      at hn hn'
    omega

/-- A file is opened, a new document saved under a name of its own, one document saved under its
own name again, and three closed. -/
theorem run_names_five_requests :
    Distinct plainEnv (runRequests plainEnv twoWindows
      [.openFiles none [(⟨4, none, false, false, false⟩, .agreeing 7)],
        .newDoc none (.agreeing 7) (.agreeing 7), .save 5 (.agreeing 7),
        .saveAs 1 (some (1, none)) (.agreeing 7), .close (.closeDocs [1, 2] (.agreeing 7))]) :=
  (run_names plainEnv twoWindows
    [.openFiles none [(⟨4, none, false, false, false⟩, .agreeing 7)],
      .newDoc none (.agreeing 7) (.agreeing 7), .save 5 (.agreeing 7),
      .saveAs 1 (some (1, none)) (.agreeing 7), .close (.closeDocs [1, 2] (.agreeing 7))]
    twoWindows_distinct (by decide) _ [] (List.append_nil _).symm).1

/-- A document saved under the name of another open one: both show the file. -/
theorem saveAs_makes_names_clash :
    Distinct plainEnv twoWindows ∧
      ¬ Distinct plainEnv
        (runRequests plainEnv twoWindows [.saveAs 1 (some (0, none)) (.agreeing 7)]) := by
  refine ⟨twoWindows_distinct, fun h => ?_⟩
  have hsame := h.unique 0 (by decide) 1 (by decide) 0 (by decide)
    (by decide)
  omega

end Medit.Editor.MooEditor
