import Medit.Editor.Tabs

/-!
# Closing documents and windows

What a run of closing requests does to unsaved documents, to the documents of a request that is
refused, and to the windows. The documents that a request closes may be in several windows; only
the window of the first one is looked at when tabs have run out.

## Main definitions

* `CloseRequest` — `moo_editor_close_docs`, `moo_editor_close_window`, `_moo_editor_close_all`.
* `Careful` — what a request keeps to: nothing unsaved goes unasked, what is refused stays open.
* `LeavesDocs` — the windows other than that of the first document keep a document.

## Main results

* `askSeveral_asked`, `askOne_asked` — what is known once the user has been asked.
* `CloseRequest.careful` — every request is careful.
* `run_closes` — a run of requests; its windows stay non-empty when each request leaves documents
  in the windows it does not look at.
-/

namespace Medit.Editor.MooEditor

open Function

variable {F N : Type} {env : Env F N} {a : Answers F} {e e' : MooEditor F} {d w : ℕ}
  {docs : List ℕ}

/-! ## Saving -/

/-- Nothing but documents in `docs` has changed. -/
structure Touches (docs : List ℕ) (e e' : MooEditor F) : Prop where
  sameTabs : e.SameTabs e'
  doc : ∀ d, d ∉ docs → e'.doc d = e.doc d

namespace Touches

theorem refl (docs : List ℕ) (e : MooEditor F) : Touches docs e e := ⟨.refl e, fun _ _ => rfl⟩

theorem trans {docs' : List ℕ} {e'' : MooEditor F} (h : Touches docs e e')
    (h' : Touches docs' e' e'') : Touches (docs ++ docs') e e'' where
  sameTabs := h.sameTabs.trans h'.sameTabs
  doc d hd := by
    rw [List.mem_append, not_or] at hd
    exact (h'.doc d hd.2).trans (h.doc d hd.1)

theorem mono {docs' : List ℕ} (h : Touches docs e e') (hsub : docs ⊆ docs') :
    Touches docs' e e' := ⟨h.sameTabs, fun d hd => h.doc d fun hmem => hd (hsub hmem)⟩

end Touches

theorem setDoc_touches (e : MooEditor F) (d : ℕ) (doc : MooEdit F) :
    Touches [d] e (e.setDoc d doc) where
  sameTabs := setDoc_sameTabs e d doc
  doc d' hd' := doc_setDoc_of_ne e (by simpa using hd') doc

theorem willSave_touches (a : Answers F) (e : MooEditor F) (d : ℕ) :
    Touches [d] e (e.willSave a d) := by
  unfold willSave
  split
  · exact setDoc_touches e d _
  · exact .refl _ e

theorem fileSaved_touches (e : MooEditor F) (d : ℕ) (file : F) (enc : String) :
    Touches [d] e (e.fileSaved d file enc) := setDoc_touches e d _

theorem fileSaved_unsaved (e : MooEditor F) (d : ℕ) (file : F) (enc : String) :
    ((e.fileSaved d file enc).doc d).unsaved = false := by
  simp [fileSaved, MooEdit.unsaved, MooEdit.clearStatus]

/-- Saving a document touches no other, and if it succeeds the document is saved. -/
def SavesOne (e : MooEditor F) (d : ℕ) (r : Bool × MooEditor F) : Prop :=
  Touches [d] e r.2 ∧ (r.1 = true → (r.2.doc d).unsaved = false)

theorem savesOne_false (e : MooEditor F) (d : ℕ) : SavesOne e d (false, e) :=
  ⟨.refl _ e, by simp⟩

theorem doSave_savesOne (e : MooEditor F) (d : ℕ) (file : F) (encoding : Option String) :
    SavesOne e d (e.doSave a d file encoding) := by
  have hwill := willSave_touches a e d
  unfold doSave
  split_ifs
  · cases written a d file encoding with
    | some enc =>
      refine ⟨(hwill.trans (fileSaved_touches _ d file enc)).mono (by simp), fun _ => ?_⟩
      exact fileSaved_unsaved _ d file enc
    | none => exact ⟨hwill, by simp⟩
  · exact savesOne_false e d

theorem saveAs_savesOne (e : MooEditor F) (d : ℕ) (info : Option (F × Option String)) :
    SavesOne e d (e.saveAs a d info) := by
  unfold saveAs
  split_ifs
  · exact savesOne_false e d
  · split
    · exact savesOne_false e d
    · exact doSave_savesOne e d _ _

theorem save_savesOne (env : Env F N) (a : Answers F) (e : MooEditor F) (d : ℕ) :
    SavesOne e d (e.save env a d) := by
  unfold save
  split
  · exact savesOne_false e d
  · split
    · exact saveAs_savesOne e d none
    · split
      · exact savesOne_false e d
      · exact doSave_savesOne e d _ _

/-! ## Asking -/

/-- What is known after the user has been asked about the documents in `docs`: if closing goes
on, each of them has been saved or the user chose not to save it. -/
structure Asked (docs : List ℕ) (e : MooEditor F) (r : Bool × MooEditor F × List Notice) :
    Prop where
  touches : Touches docs e r.2.1
  settled : r.1 = true → ∀ d ∈ docs,
    (Notice.saved d ∈ r.2.2 ∧ (r.2.1.doc d).unsaved = false) ∨ Notice.declined d ∈ r.2.2

theorem asked_cancelled (docs : List ℕ) (e : MooEditor F) : Asked docs e (false, e, []) :=
  ⟨.refl _ e, by simp⟩

theorem asked_declined (docs : List ℕ) (e : MooEditor F) :
    Asked docs e (true, e, docs.map .declined) :=
  ⟨.refl _ e, fun _ _ hd => .inr (List.mem_map_of_mem hd)⟩

theorem saveDocs_cons (e : MooEditor F) (d : ℕ) (docs : List ℕ) :
    e.saveDocs env a (d :: docs) =
      if (e.save env a d).1 then
        (((e.save env a d).2.saveDocs env a docs).1, ((e.save env a d).2.saveDocs env a docs).2.1,
          .saved d :: ((e.save env a d).2.saveDocs env a docs).2.2)
      else (false, (e.save env a d).2, []) := by
  rw [saveDocs]
  rcases e.save env a d with ⟨_ | _, e'⟩ <;> rfl

/-- Induction on the documents that are saved: one saved earlier stays so, whether or not it is
saved again. -/
theorem saveDocs_asked (env : Env F N) (a : Answers F) (e : MooEditor F) (docs : List ℕ) :
    Asked docs e (e.saveDocs env a docs) := by
  induction docs generalizing e with
  | nil => exact ⟨.refl _ e, by simp⟩
  | cons d docs ih =>
    obtain ⟨htouch, hsaved⟩ := save_savesOne env a e d
    rw [saveDocs_cons]
    split_ifs with hok
    · obtain ⟨hrest, hsettled⟩ := ih (e.save env a d).2
      refine ⟨htouch.trans hrest, fun hall x hx => ?_⟩
      by_cases hmem : x ∈ docs
      · exact (hsettled hall x hmem).imp
          (fun h => ⟨List.mem_cons_of_mem _ h.1, h.2⟩) (List.mem_cons_of_mem _)
      · obtain rfl : x = d := (List.mem_cons.mp hx).resolve_right hmem
        refine .inl ⟨List.mem_cons_self, ?_⟩
        rw [hrest.doc x hmem]
        exact hsaved hok
    · exact ⟨htouch.mono (by simp), by simp⟩

theorem askOne_asked (env : Env F N) (a : Answers F) (e : MooEditor F) (d : ℕ) :
    Asked [d] e (e.askOne env a d) := by
  unfold askOne
  split
  · exact saveDocs_asked env a e [d]
  · exact asked_cancelled _ e
  · exact asked_declined [d] e

theorem askSeveral_asked (env : Env F N) (a : Answers F) (e : MooEditor F) (docs : List ℕ) :
    Asked docs e (e.askSeveral env a docs) := by
  unfold askSeveral
  split
  · obtain ⟨htouch, hsettled⟩ := saveDocs_asked env a e (docs.filter a.toSave)
    refine ⟨htouch.mono List.filter_sublist.subset, fun hok d hd => ?_⟩
    by_cases hsave : a.toSave d
    · exact (hsettled hok d (List.mem_filter.mpr ⟨hd, hsave⟩)).imp
        (fun h => ⟨List.mem_append_right _ h.1, h.2⟩) (List.mem_append_right _)
    · refine .inr (List.mem_append_left _ (List.mem_map_of_mem ?_))
      exact List.mem_filter.mpr ⟨hd, by simpa using hsave⟩
  · exact asked_cancelled _ e
  · exact asked_declined docs e

theorem Asked.of_showIn {window : Option ℕ} {r : Bool × MooEditor F × List Notice}
    (h : Asked docs (e.showIn window d) r) : Asked docs e r where
  touches := ⟨(showIn_sameTabs e window d).trans h.touches.sameTabs, fun x hx => by
    rw [h.touches.doc x hx, doc_showIn]⟩
  settled := h.settled

theorem askToSave_asked (env : Env F N) (a : Answers F) (e : MooEditor F)
    (window : ℕ → Option ℕ) (docs : List ℕ) : Asked docs e (e.askToSave env a window docs) := by
  unfold askToSave
  rcases docs with _ | ⟨d, _ | ⟨d', docs⟩⟩
  · exact ⟨.refl _ e, by simp⟩
  · exact (askOne_asked env a _ d).of_showIn
  · exact askSeveral_asked env a e _

theorem beforeCloseWindow_asked (env : Env F N) (a : Answers F) (e : MooEditor F) (w : ℕ) :
    Asked (e.findModified (e.window w).docs) e (e.beforeCloseWindow env a w) := by
  unfold beforeCloseWindow
  split
  · exact ⟨⟨setActiveDoc_sameTabs e _, fun _ _ => by simp⟩, by simp⟩
  · exact askToSave_asked env a e _ _

/-! ## Closing after the question -/

/-- What a request that goes on has made sure of: each unsaved document in `docs` has been saved
or the user chose not to save it. -/
structure Settled (docs : List ℕ) (e e' : MooEditor F) (notices : List Notice) : Prop
    extends Touches docs e e' where
  before : ∀ d ∈ docs, (e.doc d).unsaved →
    Notice.saved d ∈ notices ∨ Notice.declined d ∈ notices
  after : ∀ d ∈ docs, (e'.doc d).unsaved → Notice.declined d ∈ notices

theorem Asked.settle {r : Bool × MooEditor F × List Notice}
    (h : Asked (e.findModified docs) e r) (hok : r.1 = true) : Settled docs e r.2.1 r.2.2 where
  toTouches := h.touches.mono List.filter_sublist.subset
  before d hd hu := (h.settled hok d (List.mem_filter.mpr ⟨hd, hu⟩)).imp_left And.left
  after d hd hu := by
    by_cases hmem : d ∈ e.findModified docs
    · refine (h.settled hok d hmem).resolve_left fun hs => ?_
      rw [hs.2] at hu
      exact Bool.false_ne_true hu
    · rw [h.touches.doc d hmem] at hu
      exact absurd (List.mem_filter.mpr ⟨hd, hu⟩) hmem

/-- Only documents of `docs` are closed, each of them settled, and no other is touched. -/
structure ClosesSettled (docs : List ℕ) (e e' : MooEditor F) (notices : List Notice) : Prop where
  placed : e'.Placed
  nextDoc : e.nextDoc ≤ e'.nextDoc
  stays : ∀ d ∈ e.getDocs, d ∉ docs → d ∈ e'.getDocs
  untouched : ∀ d, d ∉ docs → d < e.nextDoc → e'.doc d = e.doc d
  before : ∀ d ∈ docs, (e.doc d).unsaved →
    Notice.saved d ∈ notices ∨ Notice.declined d ∈ notices
  after : ∀ d ∈ docs, (e'.doc d).unsaved → Notice.declined d ∈ notices

/-- Nothing is closed. -/
structure ClosesNothing (e e' : MooEditor F) : Prop where
  placed : e'.Placed
  stays : ∀ d ∈ e.getDocs, d ∈ e'.getDocs

theorem SameTabs.closesNothing (h : e.SameTabs e') (hp : e.Placed) : ClosesNothing e e' :=
  ⟨h.placed hp, fun _ hd => h.getDocs.symm ▸ hd⟩

theorem ClosesSettled.refl (hp : e.Placed) : ClosesSettled [] e e [] :=
  ⟨hp, le_rfl, fun _ hd _ => hd, fun _ _ _ => rfl, by simp, by simp⟩

/-! ## Whole requests -/

theorem refillWindow_placed (hp : e.Placed) (window : Option ℕ) :
    (e.refillWindow env window).Placed := by
  unfold refillWindow
  split
  · split_ifs
    · exact addNewDoc_placed hp _
    · exact hp
  · exact hp

theorem addNewDoc_doc_of_ne (e : MooEditor F) (w : ℕ) (h : d ≠ e.nextDoc) :
    (e.addNewDoc env w).doc d = e.doc d := by
  rw [(newObject_added env e w).doc]
  exact update_of_ne h ..

theorem addNewDoc_mem (hp : e.Placed) (w : ℕ) (hd : d ∈ e.getDocs) :
    d ∈ (e.addNewDoc env w).getDocs := by
  have hsame := newObject_sameTabs env e
  have hadd := newObject_added env e w
  rw [← hsame.getDocs] at hd
  by_cases hw : w ∈ (e.newObject env).2.windows
  · exact (hadd.perm (hsame.placed hp) hw).mem_iff.mpr (List.mem_cons_of_mem _ hd)
  · exact (hadd.getDocs_of_notMem hw).symm ▸ hd

theorem addNewDoc_doc_nextDoc (e : MooEditor F) (w : ℕ) :
    ((e.addNewDoc env w).doc e.nextDoc).unsaved = false := by
  rw [(newObject_added env e w).doc]
  simp [newObject, MooEdit.unsaved]

theorem refillWindow_mem (hp : e.Placed) (window : Option ℕ) (hd : d ∈ e.getDocs) :
    d ∈ (e.refillWindow env window).getDocs := by
  unfold refillWindow
  split
  · split_ifs
    · exact addNewDoc_mem hp _ hd
    · exact hd
  · exact hd

theorem refillWindow_nextDoc (e : MooEditor F) (window : Option ℕ) :
    e.nextDoc ≤ (e.refillWindow env window).nextDoc := by
  unfold refillWindow
  split
  · split_ifs
    · exact Nat.le_succ _
    · exact le_rfl
  · exact le_rfl

theorem refillWindow_doc (e : MooEditor F) (window : Option ℕ) (hd : d < e.nextDoc) :
    (e.refillWindow env window).doc d = e.doc d := by
  unfold refillWindow
  split
  · split_ifs
    · exact addNewDoc_doc_of_ne e _ hd.ne
    · rfl
  · rfl

/-- The new document of a window is not unsaved, and the others are as before. -/
theorem refillWindow_unsaved (e : MooEditor F) (window : Option ℕ)
    (hu : ((e.refillWindow env window).doc d).unsaved) : (e.doc d).unsaved := by
  unfold refillWindow at hu
  split at hu
  · split_ifs at hu
    · rcases eq_or_ne d e.nextDoc with rfl | hne
      · rw [addNewDoc_doc_nextDoc] at hu
        exact absurd hu Bool.false_ne_true
      · rwa [addNewDoc_doc_of_ne e _ hne] at hu
    · exact hu
  · exact hu

theorem Settled.closeDocs {notices : List Notice} (h : Settled docs e e' notices)
    (hp : e.Placed) : ClosesSettled docs e (e'.doCloseDocs a docs) notices where
  placed := (doCloseDocs_closed a (h.sameTabs.placed hp) docs).placed (h.sameTabs.placed hp)
  nextDoc := (doCloseDocs_closed a (h.sameTabs.placed hp) docs).nextDoc ▸ h.sameTabs.nextDoc
  stays d hd hmem := by
    rw [(doCloseDocs_closed a (h.sameTabs.placed hp) docs).getDocs, h.sameTabs.getDocs]
    exact List.mem_filter.mpr ⟨hd, by simpa using hmem⟩
  untouched d hd _ := by
    rw [(doCloseDocs_closed a (h.sameTabs.placed hp) docs).doc, h.doc d hd]
  before := h.before
  after d hd hu := by
    rw [(doCloseDocs_closed a (h.sameTabs.placed hp) docs).doc] at hu
    exact h.after d hd hu

theorem ClosesSettled.refill {notices : List Notice} (h : ClosesSettled docs e e' notices)
    (window : Option ℕ) : ClosesSettled docs e (e'.refillWindow env window) notices where
  placed := refillWindow_placed h.placed window
  nextDoc := h.nextDoc.trans (refillWindow_nextDoc e' window)
  stays d hd hmem := refillWindow_mem h.placed window (h.stays d hd hmem)
  untouched d hd hlt := by
    rw [refillWindow_doc e' window (hlt.trans_le h.nextDoc), h.untouched d hd hlt]
  before := h.before
  after d hd hu := h.after d hd (refillWindow_unsaved e' window hu)

theorem closeDocs_false (hp : e.Placed) (h : (e.closeDocs env a docs).1 = false) :
    ClosesNothing e (e.closeDocs env a docs).2.1 := by
  have hask := (askToSave_asked env a e e.getWindow (e.findModified docs)).touches.sameTabs
  unfold closeDocs closeDocsReal at h ⊢
  cases docs with
  | nil => simp at h
  | cons first docs =>
    dsimp only at h ⊢
    cases hb : e.findBusy (first :: docs) with
    | some busy => exact (setActiveDoc_sameTabs e busy).closesNothing hp
    | none =>
      rcases hr : e.askToSave env a e.getWindow (e.findModified (first :: docs))
        with ⟨_ | _, e', notices⟩
      · rw [hr] at hask
        exact hask.closesNothing hp
      · simp [hb, hr] at h

theorem closeDocs_true (hp : e.Placed) (h : (e.closeDocs env a docs).1 = true) :
    ClosesSettled docs e (e.closeDocs env a docs).2.1 (e.closeDocs env a docs).2.2 := by
  have hask := askToSave_asked env a e e.getWindow (e.findModified docs)
  unfold closeDocs closeDocsReal at h ⊢
  cases docs with
  | nil => exact .refl hp
  | cons first docs =>
    dsimp only at h ⊢
    cases hb : e.findBusy (first :: docs) with
    | some busy => simp [hb] at h
    | none =>
      rcases hr : e.askToSave env a e.getWindow (e.findModified (first :: docs))
        with ⟨_ | _, e', notices⟩
      · simp [hb, hr] at h
      · rw [hr] at hask
        exact ((hask.settle rfl).closeDocs hp).refill _

theorem doCloseWindow_getDocs (a : Answers F) (hp : e.Placed) (hw : w ∈ e.windows) :
    (e.doCloseWindow a w).getDocs = e.getDocs.filter (· ∉ (e.window w).docs) := by
  have hclosed := doCloseDocs_closed a hp (e.window w).docs
  refine Eq.trans (Bins.items_erase_empty ?_) hclosed.getDocs
  change ((e.doCloseDocs a (e.window w).docs).window w).docs = []
  rw [hclosed.docs_eq w hw, List.filter_eq_nil_iff]
  simp

theorem doCloseWindow_doc (a : Answers F) (hp : e.Placed) (w : ℕ) :
    (e.doCloseWindow a w).doc = e.doc := (doCloseDocs_closed a hp (e.window w).docs).doc

theorem doCloseWindow_placed (a : Answers F) (hp : e.Placed) (hw : w ∈ e.windows) :
    (e.doCloseWindow a w).Placed := by
  have hclosed := doCloseDocs_closed a hp (e.window w).docs
  have hplaced := hclosed.placed hp
  have hdocs := (doCloseWindow_getDocs a hp hw).trans hclosed.getDocs.symm
  exact ⟨hdocs ▸ hplaced.docs_nodup, hplaced.windows_nodup.erase w,
    fun d hd => hplaced.docs_lt d (hdocs ▸ hd),
    fun v hv => hplaced.windows_lt v (List.mem_of_mem_erase hv)⟩

theorem doCloseWindow_closesSettled {notices : List Notice}
    (h : Settled (e.window w).docs e e' notices) (hp : e.Placed) (hw : w ∈ e.windows) :
    ClosesSettled (e.window w).docs e (e'.doCloseWindow a w) notices := by
  have hp' := h.sameTabs.placed hp
  have hw' : w ∈ e'.windows := h.sameTabs.windows ▸ hw
  refine ⟨doCloseWindow_placed a hp' hw', ?_, fun d hd hmem => ?_, fun d hd _ => ?_, h.before,
    fun d hd hu => ?_⟩
  · exact (doCloseDocs_closed a hp' (e'.window w).docs).nextDoc ▸ h.sameTabs.nextDoc
  · rw [doCloseWindow_getDocs a hp' hw', h.sameTabs.getDocs, h.sameTabs.docs]
    exact List.mem_filter.mpr ⟨hd, by simpa using hmem⟩
  · rw [doCloseWindow_doc a hp', h.doc d hd]
  · rw [doCloseWindow_doc a hp'] at hu
    exact h.after d hd hu

theorem closeWindow_false (hp : e.Placed) (h : (e.closeWindow env a w).1 = false) :
    ClosesNothing e (e.closeWindow env a w).2.1 := by
  have hask := (beforeCloseWindow_asked env a e w).touches.sameTabs
  unfold closeWindow at h ⊢
  split_ifs at h ⊢
  · rcases hr : e.beforeCloseWindow env a w with ⟨_ | _, e', notices⟩
    · rw [hr] at hask
      exact hask.closesNothing hp
    · simp [hr] at h
  · exact (SameTabs.refl e).closesNothing hp

/-- The documents that closing a window closes. -/
def docsOf (e : MooEditor F) (w : ℕ) : List ℕ := if w ∈ e.windows then (e.window w).docs else []

theorem closeWindow_true (hp : e.Placed) (h : (e.closeWindow env a w).1 = true) :
    ClosesSettled (e.docsOf w) e (e.closeWindow env a w).2.1 (e.closeWindow env a w).2.2 := by
  have hask := beforeCloseWindow_asked env a e w
  unfold closeWindow at h ⊢
  unfold docsOf
  by_cases hw : w ∈ e.windows
  · simp only [if_pos hw] at h ⊢
    split_ifs at h ⊢ with hc
    · rcases hr : e.beforeCloseWindow env a w with ⟨_ | _, e', notices⟩
      · simp [hr] at h
      · rw [hr] at hask
        exact doCloseWindow_closesSettled (hask.settle rfl) hp hw
  · simp only [if_neg hw]
    exact .refl hp

/-! ## Requests -/

/-- The closing requests. -/
inductive CloseRequest (F : Type)
  | closeDocs (docs : List ℕ) (a : Answers F)
  | closeWindow (w : ℕ) (a : Answers F)
  | closeAll (a : Answers F)

namespace CloseRequest

/-- What a request returns, what it leaves and what it tells of documents. -/
def answer (env : Env F N) (e : MooEditor F) : CloseRequest F → Bool × MooEditor F × List Notice
  | closeDocs docs a => e.closeDocs env a docs
  | closeWindow w a => e.closeWindow env a w
  | closeAll a => e.closeAll env a

/-- The editor after a request. -/
def result (env : Env F N) (e : MooEditor F) (r : CloseRequest F) : MooEditor F :=
  (r.answer env e).2.1

/-- The documents that `moo_editor_close_docs` or `moo_editor_close_window` is asked to close. -/
def toClose (e : MooEditor F) : CloseRequest F → List ℕ
  | closeDocs docs _ => docs
  | closeWindow w _ => e.docsOf w
  | closeAll _ => []

/-- The documents of a request are open ones, each there once. -/
def Proper (e : MooEditor F) : CloseRequest F → Prop
  | closeDocs docs _ => docs.Nodup ∧ docs ⊆ e.getDocs
  | _ => True

/-- Whether the windows other than that of the first document keep a document. -/
def LeavesDocs (env : Env F N) (e : MooEditor F) : CloseRequest F → Prop
  | closeDocs (first :: docs) _ => env.allowEmptyWindow ∨
      ∀ w ∈ e.windows, e.getWindow first ≠ some w → ∃ d ∈ (e.window w).docs, d ∉ first :: docs
  | _ => True

end CloseRequest

/-- Unless empty windows are allowed each window has a document. -/
def NoEmptyWindow (env : Env F N) (e : MooEditor F) : Prop :=
  env.allowEmptyWindow ∨ ∀ w ∈ e.windows, (e.window w).docs ≠ []

/-- An unsaved document that is closed has been saved in the request or the user chose not to
save it, and each document is in one place. -/
structure Lawful (e : MooEditor F) (r : Bool × MooEditor F × List Notice) : Prop where
  settled : ∀ d ∈ e.getDocs, d ∉ r.2.1.getDocs → (e.doc d).unsaved ∨ (r.2.1.doc d).unsaved →
    Notice.saved d ∈ r.2.2 ∨ Notice.declined d ∈ r.2.2
  placed : r.2.1.Placed

/-- What a request keeps to: it is lawful, and what it is refused to close stays open. -/
structure Careful (env : Env F N) (e : MooEditor F) (r : CloseRequest F) : Prop
    extends Lawful e (r.answer env e) where
  refused : (r.answer env e).1 = false → ∀ d ∈ r.toClose e, d ∈ (r.result env e).getDocs

theorem ClosesSettled.lawful {r : Bool × MooEditor F × List Notice}
    (h : ClosesSettled docs e r.2.1 r.2.2) : Lawful e r where
  settled d hd hgone hu := by
    have hmem : d ∈ docs := by
      by_contra hmem
      exact hgone (h.stays d hd hmem)
    rcases hu with hu | hu
    · exact h.before d hmem hu
    · exact .inr (h.after d hmem hu)
  placed := h.placed

theorem ClosesNothing.lawful {r : Bool × MooEditor F × List Notice}
    (h : ClosesNothing e r.2.1) : Lawful e r where
  settled d hd hgone := absurd (h.stays d hd) hgone
  placed := h.placed

theorem closeDocs_lawful (hp : e.Placed) (docs : List ℕ) :
    Lawful e (e.closeDocs env a docs) := by
  cases hr : (e.closeDocs env a docs).1 with
  | false => exact (closeDocs_false hp hr).lawful
  | true => exact (closeDocs_true hp hr).lawful

theorem closeWindow_lawful (env : Env F N) (a : Answers F) (hp : e.Placed) (w : ℕ) :
    Lawful e (e.closeWindow env a w) := by
  cases hr : (e.closeWindow env a w).1 with
  | false => exact (closeWindow_false hp hr).lawful
  | true => exact (closeWindow_true hp hr).lawful

/-! ## All windows -/

theorem closeWindows_cons (e : MooEditor F) (w : ℕ) (windows : List ℕ) :
    e.closeWindows env a (w :: windows) =
      if (e.closeWindow env a w).1 then
        (((e.closeWindow env a w).2.1.closeWindows env a windows).1,
          ((e.closeWindow env a w).2.1.closeWindows env a windows).2.1,
          (e.closeWindow env a w).2.2 ++
            ((e.closeWindow env a w).2.1.closeWindows env a windows).2.2)
      else (false, (e.closeWindow env a w).2.1, (e.closeWindow env a w).2.2) := by
  rw [closeWindows]
  rcases e.closeWindow env a w with ⟨_ | _, e', notices⟩ <;> rfl

/-- Closing a window opens nothing and touches only documents that are open. -/
theorem closeWindow_within (env : Env F N) (a : Answers F) (hp : e.Placed) (w : ℕ) :
    (∀ d ∈ (e.closeWindow env a w).2.1.getDocs, d ∈ e.getDocs) ∧
      ∀ d, d ∉ e.getDocs → (e.closeWindow env a w).2.1.doc d = e.doc d := by
  obtain ⟨hsame, hdoc⟩ := (beforeCloseWindow_asked env a e w).touches
  have hopen (hw : w ∈ e.windows) (d : ℕ) (hd : d ∉ e.getDocs) :
      d ∉ e.findModified (e.window w).docs :=
    fun hmem => hd (mem_getDocs_of_window hw (List.mem_of_mem_filter hmem))
  unfold closeWindow
  split_ifs with hw hc
  · rcases hr : e.beforeCloseWindow env a w with ⟨_ | _, e', notices⟩
    · rw [hr] at hsame hdoc
      exact ⟨fun d hd => hsame.getDocs ▸ hd, fun d hd => hdoc d (hopen hw d hd)⟩
    · rw [hr] at hsame hdoc
      dsimp only at hsame hdoc ⊢
      have hp' := hsame.placed hp
      rw [doCloseWindow_getDocs a hp' (hsame.windows ▸ hw), doCloseWindow_doc a hp', hsame.getDocs]
      exact ⟨fun d hd => List.mem_of_mem_filter hd, fun d hd => hdoc d (hopen hw d hd)⟩
  · exact ⟨fun _ hd => hd, fun _ _ => rfl⟩
  · exact ⟨fun _ hd => hd, fun _ _ => rfl⟩

/-- Induction on the windows: a document that one of them closes is not touched by the others,
and one that a later window closes was not touched before. -/
theorem closeWindows_lawful (hp : e.Placed) (windows : List ℕ) :
    Lawful e (e.closeWindows env a windows) ∧
      ∀ d, d ∉ e.getDocs → (e.closeWindows env a windows).2.1.doc d = e.doc d := by
  induction windows generalizing e with
  | nil => exact ⟨(SameTabs.refl e).closesNothing hp |>.lawful, fun _ _ => rfl⟩
  | cons w windows ih =>
    obtain ⟨hsub, hdoc⟩ := closeWindow_within env a hp w
    have hfirst := closeWindow_lawful env a hp w
    rw [closeWindows_cons]
    split_ifs with hok
    · obtain ⟨hrest, hrestDoc⟩ := ih hfirst.placed
      have hclosed := closeWindow_true hp hok
      refine ⟨⟨fun d hd hgone hu => ?_, hrest.placed⟩, fun d hd => ?_⟩
      · by_cases hmid : d ∈ (e.closeWindow env a w).2.1.getDocs
        · by_cases hw : d ∈ e.docsOf w ∧ (e.doc d).unsaved
          · exact (hclosed.before d hw.1 hw.2).imp (List.mem_append_left _)
              (List.mem_append_left _)
          · refine (hrest.settled d hmid hgone ?_).imp (List.mem_append_right _)
              (List.mem_append_right _)
            refine hu.imp_left fun hu => ?_
            rwa [hclosed.untouched d (fun hmem => hw ⟨hmem, hu⟩) (hp.docs_lt d hd)]
        · refine (hfirst.settled d hd hmid (hu.imp_right fun hu => ?_)).imp
            (List.mem_append_left _) (List.mem_append_left _)
          rwa [hrestDoc d hmid] at hu
      · rw [hrestDoc d fun hmid => hd (hsub d hmid), hdoc d hd]
    · exact ⟨⟨hfirst.settled, hfirst.placed⟩, hdoc⟩

theorem closeAll_lawful (hp : e.Placed) : Lawful e (e.closeAll env a) :=
  (closeWindows_lawful hp e.windows).1

/-! ## Windows that keep documents -/

theorem SameTabs.noEmptyWindow (h : e.SameTabs e') (hn : NoEmptyWindow env e) :
    NoEmptyWindow env e' := by
  refine hn.imp_right fun hn w hw => ?_
  rw [h.docs]
  exact hn w (h.windows ▸ hw)

/-- The windows that are not looked at keep a document, and the other gets a new one. -/
theorem refillWindow_noEmptyWindow (hclosed : Closed docs e e') {window : Option ℕ}
    (h : env.allowEmptyWindow ∨
      ∀ w ∈ e.windows, window ≠ some w → ∃ d ∈ (e.window w).docs, d ∉ docs) :
    NoEmptyWindow env (e'.refillWindow env window) := by
  rcases h with h | h
  · exact .inl h
  refine or_iff_not_imp_left.mpr fun hempty w hw => ?_
  have hkeep (hw : w ∈ e.windows) (hne : window ≠ some w) : (e'.window w).docs ≠ [] := by
    obtain ⟨d, hd, hmem⟩ := h w hw hne
    rw [hclosed.docs_eq w hw]
    exact List.ne_nil_of_mem (List.mem_filter.mpr ⟨hd, by simpa using hmem⟩)
  cases window with
  | none => exact hkeep (hclosed.windows ▸ hw) (by simp)
  | some v =>
    simp only [refillWindow] at hw ⊢
    split_ifs at hw ⊢ with hv
    · have hadd := newObject_added env e' v
      have hw' : w ∈ e.windows := hclosed.windows ▸ hadd.windows ▸ hw
      rcases eq_or_ne w v with rfl | hne
      · exact List.ne_nil_of_mem (hadd.docs_self.mem_iff.mpr List.mem_cons_self)
      · rw [hadd.docs_of_ne w hne]
        exact hkeep hw' (by simpa using hne.symm)
    · rcases eq_or_ne w v with rfl | hne
      · simpa [hempty] using hv
      · exact hkeep (hclosed.windows ▸ hw) (by simpa using hne.symm)

theorem closeDocs_noEmptyWindow (hp : e.Placed) (hn : NoEmptyWindow env e)
    (hleaves : (CloseRequest.closeDocs docs a).LeavesDocs env e) :
    NoEmptyWindow env (e.closeDocs env a docs).2.1 := by
  have hask := (askToSave_asked env a e e.getWindow (e.findModified docs)).touches.sameTabs
  unfold closeDocs closeDocsReal
  cases docs with
  | nil => exact hn
  | cons first docs =>
    dsimp only
    split
    · exact (setActiveDoc_sameTabs e _).noEmptyWindow hn
    · rcases hr : e.askToSave env a e.getWindow (e.findModified (first :: docs))
        with ⟨_ | _, e', notices⟩
      · rw [hr] at hask
        exact hask.noEmptyWindow hn
      · rw [hr] at hask
        dsimp only at hask
        have hclosed := doCloseDocs_closed a (hask.placed hp) (first :: docs)
        refine refillWindow_noEmptyWindow hclosed ?_
        simp only [hask.windows, hask.docs]
        exact hleaves

theorem closeWindow_noEmptyWindow (hp : e.Placed) (hn : NoEmptyWindow env e) (w : ℕ) :
    NoEmptyWindow env (e.closeWindow env a w).2.1 := by
  have hask := (beforeCloseWindow_asked env a e w).touches.sameTabs
  unfold closeWindow
  split_ifs with hw hc
  · rcases hr : e.beforeCloseWindow env a w with ⟨_ | _, e', notices⟩
    · rw [hr] at hask
      exact hask.noEmptyWindow hn
    · rw [hr] at hask
      have hp' := hask.placed hp
      have hclosed := doCloseDocs_closed a hp' (e'.window w).docs
      refine (hask.noEmptyWindow hn).imp_right fun hn' v hv => ?_
      obtain ⟨hne, hv⟩ := (hclosed.placed hp').windows_nodup.mem_erase_iff.mp hv
      have hv' : v ∈ e'.windows := hclosed.windows ▸ hv
      obtain ⟨d, hd⟩ := List.exists_mem_of_ne_nil _ (hn' v hv')
      change ((e'.doCloseDocs a (e'.window w).docs).window v).docs ≠ []
      rw [hclosed.docs_eq v hv']
      refine List.ne_nil_of_mem (List.mem_filter.mpr ⟨hd, ?_⟩)
      have hdw : d ∉ (e'.window w).docs := fun hdw =>
        hne (Bins.bin_unique hp'.docs_nodup hv' (hask.windows ▸ hw) hd hdw)
      simpa using hdw
  · exact hn
  · exact hn

theorem closeWindows_noEmptyWindow (hp : e.Placed) (hn : NoEmptyWindow env e)
    (windows : List ℕ) : NoEmptyWindow env (e.closeWindows env a windows).2.1 := by
  induction windows generalizing e with
  | nil => exact hn
  | cons w windows ih =>
    have hfirst := closeWindow_noEmptyWindow (a := a) hp hn w
    rw [closeWindows_cons]
    split_ifs
    · exact ih (closeWindow_lawful env a hp w).placed hfirst
    · exact hfirst

/-! ## Runs of requests -/

namespace CloseRequest

variable {r : CloseRequest F}

theorem careful (env : Env F N) (hp : e.Placed) (hproper : r.Proper e) : Careful env e r := by
  cases r with
  | closeDocs docs a =>
    exact ⟨closeDocs_lawful hp docs, fun hr d hd => (closeDocs_false hp hr).stays d (hproper.2 hd)⟩
  | closeWindow w a =>
    refine ⟨closeWindow_lawful env a hp w, fun hr d hd => (closeWindow_false hp hr).stays d ?_⟩
    simp only [toClose, docsOf] at hd
    split_ifs at hd with hw
    · exact mem_getDocs_of_window hw hd
    · simp at hd
  | closeAll a => exact ⟨closeAll_lawful hp, by simp [toClose]⟩

theorem noEmptyWindow (hp : e.Placed) (hn : NoEmptyWindow env e) (hleaves : r.LeavesDocs env e) :
    NoEmptyWindow env (r.result env e) := by
  cases r with
  | closeDocs docs a => exact closeDocs_noEmptyWindow hp hn hleaves
  | closeWindow w a => exact closeWindow_noEmptyWindow hp hn w
  | closeAll a => exact closeWindows_noEmptyWindow hp hn e.windows

end CloseRequest

/-- The editor after a run of closing requests. -/
def runCloses (env : Env F N) (e : MooEditor F) (rs : List (CloseRequest F)) : MooEditor F :=
  rs.foldl (fun e r => r.result env e) e

/-- The documents that each request of a run is given are open ones, each there once. -/
def ProperRun (env : Env F N) (e : MooEditor F) : List (CloseRequest F) → Prop
  | [] => True
  | r :: rs => r.Proper e ∧ ProperRun env (r.result env e) rs

/-- Each request of a run leaves a document in the windows it does not look at. -/
def LeavesRun (env : Env F N) (e : MooEditor F) : List (CloseRequest F) → Prop
  | [] => True
  | r :: rs => r.LeavesDocs env e ∧ LeavesRun env (r.result env e) rs

theorem run_careful {rs : List (CloseRequest F)} (hp : e.Placed) (hproper : ProperRun env e rs) :
    ∀ pre r post, rs = pre ++ r :: post → Careful env (runCloses env e pre) r := by
  induction rs generalizing e with
  | nil => simp
  | cons r rs ih =>
    intro pre r' post hsplit
    have hone := CloseRequest.careful env hp hproper.1
    cases pre with
    | nil =>
      obtain ⟨rfl, rfl⟩ := List.cons.inj hsplit
      exact hone
    | cons r'' pre =>
      obtain ⟨rfl, hrest⟩ := List.cons.inj hsplit
      exact ih hone.placed hproper.2 pre r' post hrest

theorem run_noEmptyWindow {rs : List (CloseRequest F)} (hp : e.Placed)
    (hproper : ProperRun env e rs) (hleaves : LeavesRun env e rs) (hn : NoEmptyWindow env e) :
    ∀ pre post, rs = pre ++ post → NoEmptyWindow env (runCloses env e pre) := by
  induction rs generalizing e with
  | nil =>
    intro pre post hsplit
    obtain ⟨rfl, rfl⟩ := List.append_eq_nil_iff.mp hsplit.symm
    exact hn
  | cons r rs ih =>
    intro pre post hsplit
    cases pre with
    | nil => exact hn
    | cons r' pre =>
      obtain ⟨rfl, hrest⟩ := List.cons.inj hsplit
      exact ih (CloseRequest.careful env hp hproper.1).placed hproper.2 hleaves.2
        (CloseRequest.noEmptyWindow hp hn hleaves.1) pre post hrest

/-- In a run of closing requests an unsaved document is closed only if it has been saved in the
request or the user chose not to save it, what a request is refused to close stays open, and each
document is in one place. Unless empty windows are allowed each window keeps a document, as long
as each request leaves one in the windows other than that of its first document. -/
theorem run_closes (env : Env F N) (e : MooEditor F) (rs : List (CloseRequest F))
    (hp : e.Placed) (hproper : ProperRun env e rs) :
    (∀ pre r post, rs = pre ++ r :: post → Careful env (runCloses env e pre) r) ∧
      (NoEmptyWindow env e → LeavesRun env e rs →
        ∀ pre post, rs = pre ++ post → NoEmptyWindow env (runCloses env e pre)) :=
  ⟨run_careful hp hproper, fun hn hleaves => run_noEmptyWindow hp hproper hleaves hn⟩

instance decidableProperRun (env : Env F N) :
    (e : MooEditor F) → (rs : List (CloseRequest F)) → Decidable (ProperRun env e rs)
  | _, [] => isTrue trivial
  | e, r :: rs =>
    have : Decidable (ProperRun env (r.result env e) rs) := decidableProperRun env _ rs
    have : Decidable (r.Proper e) := match r with
      | .closeDocs docs _ => inferInstanceAs (Decidable (docs.Nodup ∧ ∀ d ∈ docs, d ∈ e.getDocs))
      | .closeWindow _ _ => isTrue trivial
      | .closeAll _ => isTrue trivial
    inferInstanceAs (Decidable (_ ∧ _))

instance decidableLeavesRun (env : Env F N) :
    (e : MooEditor F) → (rs : List (CloseRequest F)) → Decidable (LeavesRun env e rs)
  | _, [] => isTrue trivial
  | e, r :: rs =>
    have : Decidable (LeavesRun env (r.result env e) rs) := decidableLeavesRun env _ rs
    have : Decidable (r.LeavesDocs env e) := match r with
      | .closeDocs [] _ => isTrue trivial
      | .closeDocs (_ :: _) _ => inferInstanceAs (Decidable (_ ∨ _))
      | .closeWindow _ _ => isTrue trivial
      | .closeAll _ => isTrue trivial
    inferInstanceAs (Decidable (_ ∧ _))

instance (env : Env F N) (e : MooEditor F) : Decidable (NoEmptyWindow env e) :=
  inferInstanceAs (Decidable (_ ∨ _))

/-- Two windows with two documents each, one of which is modified in each window. -/
def twoWindows : MooEditor ℕ where
  windows := [0, 1]
  windowless := []
  window w := if w = 0 then ⟨[0, 1], some 0⟩ else ⟨[2, 3], some 2⟩
  doc d := ⟨some d, "UTF-8", d = 1 || d = 2, false, false, false, false, true⟩
  nextWindow := 2
  nextDoc := 4
  top := some 0

/-- Empty windows are not allowed, and files are numbers. -/
def plainEnv : Env ℕ ℕ := ⟨false, false, false, "UTF-8", id, fun _ => true⟩

theorem twoWindows_placed : twoWindows.Placed :=
  ⟨by decide, by decide, by decide, by decide⟩

/-- A run that saves two documents on the way and closes everything. -/
theorem run_closes_two_windows :
    (∀ pre r post,
      [.closeDocs [1, 2] (.agreeing 7), .closeWindow 1 (.agreeing 7), .closeAll (.agreeing 7)] =
        pre ++ r :: post → Careful plainEnv (runCloses plainEnv twoWindows pre) r) ∧
      ∀ pre post,
        [.closeDocs [1, 2] (.agreeing 7), .closeWindow 1 (.agreeing 7), .closeAll (.agreeing 7)] =
          pre ++ post → NoEmptyWindow plainEnv (runCloses plainEnv twoWindows pre) :=
  have h := run_closes plainEnv twoWindows
    [.closeDocs [1, 2] (.agreeing 7), .closeWindow 1 (.agreeing 7), .closeAll (.agreeing 7)]
    twoWindows_placed (by decide)
  ⟨h.1, h.2 (by decide) (by decide)⟩

/-- The documents of two windows closed in one request: the second window is left without any. -/
theorem run_leaves_window_empty :
    twoWindows.Placed ∧ NoEmptyWindow plainEnv twoWindows ∧
      ProperRun plainEnv twoWindows [.closeDocs [0, 1, 2, 3] (.agreeing 7)] ∧
      ¬ NoEmptyWindow plainEnv
        (runCloses plainEnv twoWindows [.closeDocs [0, 1, 2, 3] (.agreeing 7)]) :=
  ⟨twoWindows_placed, by decide, by decide, by decide⟩

end Medit.Editor.MooEditor
