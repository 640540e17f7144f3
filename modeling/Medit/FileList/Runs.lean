import Medit.FileList.Update

/-!
# Every run of the file list

The user adds groups, drops files, drags and removes rows, and updates come with the open documents.

## Main definitions

* `Call.Fits` — what a call needs: an update, that no row with the URI of an open document holds another
  one; a drag to another parent, that no row below the dragged one holds a document.
* `Shaped`, `HasRow` — the shape of the rows, and the row of a document.

## Main results

* `Run.rows_agree` — after any run the rows have their shape, and the calls come to their end.
-/

namespace Medit.FileListPlugin

open LinkedForest

namespace FileList

variable {st st' : FileList} {user sep auto : List ℕ} {x y row index : ℕ} {parent : Option ℕ} {d : Doc}

/-! ## Places -/

theorem Frame.place_of_isGroup (h : st.Good user sep auto) (hmem : row ∈ st.rows.nodes)
    (hgroup : st.isGroup row) : st.Place sep auto (some row) := by
  rintro p ⟨⟩
  refine ⟨hmem, fun hrow => ?_⟩
  obtain hsep | hauto := List.mem_append.1 hrow
  · simp [isGroup, itemAt, h.sep_item row hsep] at hgroup
  · by_cases hsep : row ∈ sep
    · simp [isGroup, itemAt, h.sep_item row hsep] at hgroup
    · obtain ⟨doc, hitem⟩ := h.items.auto row ⟨hmem, hsep⟩ hauto
      simp [isGroup, hitem] at hgroup

theorem Frame.place_parentOf (h : st.Frame user sep auto) :
    st.Place sep auto (st.rows.parentOf row) := by
  intro p hp
  obtain ⟨hmem, hunder, hne⟩ := Forest.parentOf_eq_some h.layout.nodup hp
  exact ⟨hmem, h.layout.not_leaf hunder hne⟩

theorem place_none : st.Place sep auto none := by
  rintro p ⟨⟩

/-- Where a drop goes. -/
theorem Good.findDropDestination (h : st.Good user sep auto) {dest : List ℕ}
    (hdest : st.findDropDestination dest = some (parent, index)) :
    st.Place sep auto parent ∧ (parent = none → index ≤ st.nUserItems) := by
  unfold FileList.findDropDestination at hdest
  have hgroup {row : ℕ} {path : List ℕ} {n : ℕ} (hat : st.rows.nodeAt path = some row)
      (hrow : st.isGroup row) (heq : (some row, n) = (parent, index)) :
      st.Place sep auto parent ∧ (parent = none → index ≤ st.nUserItems) := by
    obtain ⟨rfl, rfl⟩ := Prod.mk.inj heq
    exact ⟨Frame.place_of_isGroup h (Forest.nodeAt_mem hat) hrow, by simp⟩
  have htop {n : ℕ} (heq : ((none : Option ℕ), min n st.nUserItems) = (parent, index)) :
      st.Place sep auto parent ∧ (parent = none → index ≤ st.nUserItems) := by
    obtain ⟨rfl, rfl⟩ := Prod.mk.inj heq
    exact ⟨place_none, fun _ => Nat.min_le_right _ _⟩
  split_ifs at hdest with hlen
  · exact htop (Option.some.inj hdest)
  · dsimp only at hdest
    split at hdest
    · simp at hdest
    · next row hat =>
      split_ifs at hdest with hrow htops
      · exact hgroup hat hrow (Option.some.inj hdest)
      · exact htop (Option.some.inj hdest)
      · split at hdest
        · simp at hdest
        · next group hat' =>
          split_ifs at hdest with hgrp
          exact hgroup hat' hgrp (Option.some.inj hdest)

/-! ## What the user does -/

theorem Good.addGroup (h : st.Good user sep auto) (path : Option (List ℕ)) :
    ∃ user' sep', (st.addGroup path).Good user' sep' auto := by
  have hnew {parent : Option ℕ} (hparent : st.Place sep auto parent) (index : ℕ) :
      ∃ user' sep', (st.insertNew (.group "Group") parent index).Good user' sep' auto := by
    obtain ⟨user', sep', hgood, -⟩ := h.insertNew
      (show Item.IsUser (.group "Group") from trivial) (by simp) hparent index
    exact ⟨user', sep', hgood⟩
  unfold FileList.addGroup
  split
  · exact hnew place_none _
  · split
    · exact ⟨user, sep, h⟩
    · next row hat =>
      split_ifs with hgroup hauto
      · exact hnew (Frame.place_of_isGroup h (Forest.nodeAt_mem hat) hgroup) _
      · exact hnew place_none _
      · exact hnew h.toFrame.place_parentOf _

theorem Good.removeItems (h : st.Good user sep auto) (paths : List (List ℕ)) :
    ∃ st' user' sep' auto', st.removeItems paths = some st' ∧ st'.Good user' sep' auto' := by
  unfold FileList.removeItems
  generalize paths.filterMap st.rows.nodeAt = rows
  induction rows generalizing st user sep auto with
  | nil => exact ⟨st, user, sep, auto, rfl, h⟩
  | cons row rows ih =>
    rw [List.foldlM_cons]
    by_cases hrow : row ∈ st.rows.nodes ∧ ¬ st.isAuto row
    · have hsep : row ∉ sep := fun hmem =>
        hrow.2 (h.isAuto_iff.2 (List.mem_append_left _ hmem))
      obtain ⟨st₁, user₁, sep₁, auto₁, hremove, hgood, -⟩ := h.removeRow hrow.1 hsep
      rw [if_pos hrow, hremove]
      exact ih hgood
    · rw [if_neg hrow]
      exact ih h

theorem Good.dropUris (h : st.Good user sep auto) (isDirectory : String → Bool) (dest : List ℕ)
    (uris : List String) : ∃ user' sep', (st.dropUris isDirectory dest uris).Good user' sep' auto := by
  unfold FileList.dropUris
  split
  · exact ⟨user, sep, h⟩
  · next parent index hdest =>
    obtain ⟨hplace, -⟩ := h.findDropDestination hdest
    clear hdest
    induction uris generalizing st user sep index with
    | nil => exact ⟨user, sep, h⟩
    | cons uri uris ih =>
      rw [List.foldl_cons]
      split_ifs
      · exact ih h index hplace
      · exact ih h (index + 1) hplace
      · obtain ⟨user₁, sep₁, hgood, -, hkept⟩ := h.insertNew
          (show Item.IsUser (.file (some uri) none) from rfl) (by simp) hplace index
        exact ih hgood (index + 1) fun p hp => hkept p (hplace p hp).1 (hplace p hp).2

/-- What a drag needs: no row below the one that gets another parent holds a document. -/
def Drags (st : FileList) (dest source : List ℕ) : Prop :=
  ∀ row parent index, st.dropPlace dest source = some (row, parent, index) →
    st.rows.parentOf row ≠ parent → ∀ k ∈ st.rows.under row, k ≠ row → st.docAt k = none

/-- A drag keeps the rows of the user; an automatic row that is dragged becomes one. -/
theorem Good.dropTreeModelRow (h : st.Good user sep auto) {dest source : List ℕ}
    (hdrag : st.Drags dest source) :
    ∃ st' user' sep' auto', st.dropTreeModelRow dest source = some st' ∧ st'.Good user' sep' auto' ∧
      (st'.userItems.Perm st.userItems ∨ ∃ row, st.rows.nodeAt source = some row ∧
        st.KeepsItems st' row) := by
  unfold FileList.dropTreeModelRow
  cases hplace : st.dropPlace dest source with
  | none => exact ⟨st, user, sep, auto, rfl, h, .inl (.refl _)⟩
  | some p =>
    obtain ⟨row, parent, index⟩ := p
    have hdocs := hdrag row parent index hplace
    rw [dropPlace] at hplace
    obtain ⟨row', hat, hplace⟩ := Option.bind_eq_some_iff.1 hplace
    split_ifs at hplace with hitem
    obtain ⟨⟨parent', index'⟩, hdest, hplace⟩ := Option.bind_eq_some_iff.1 hplace
    dsimp only at hplace
    split_ifs at hplace with hbelow
    obtain ⟨rfl, heq⟩ := Prod.mk.inj (Option.some.inj hplace)
    obtain ⟨rfl, rfl⟩ := Prod.mk.inj heq
    obtain ⟨hparent, hindex⟩ := h.findDropDestination hdest
    obtain ⟨st', user', sep', auto', hmove, hgood, hkeeps⟩ := h.moveRow
      (h.live_of_item (Forest.nodeAt_mem hat) hitem) hparent
      (fun p hp hunder => hbelow ⟨p, hp, hunder⟩) hindex hdocs
    exact ⟨st', user', sep', auto', hmove, hgood, .inr ⟨row', hat, hkeeps⟩⟩

/-! ## Loading -/

theorem init_good : init.Good [] [] [] :=
  ⟨⟨⟨rfl, List.nodup_nil, by simp [init], by simp⟩, rfl, rfl, by simp⟩,
    ⟨by simp [Live, init], by simp, by simp [Live, init], by simp [Live, init], by simp [Live, init],
      by simp [init], List.nodup_nil⟩⟩

theorem Good.load (h : st.Good user sep auto) (conf : Forest Element)
    (hparent : st.Place sep auto parent) :
    ∃ user' sep', (FileList.load conf st parent).Good user' sep' auto ∧
      ∀ x ∈ st.rows.nodes, x ∉ sep ++ auto →
        x ∈ (FileList.load conf st parent).rows.nodes ∧ x ∉ sep' ++ auto := by
  induction conf generalizing st user sep parent with
  | nil => exact ⟨user, sep, h, fun _ hx hx' => ⟨hx, hx'⟩⟩
  | node element kids rest ihk ihr =>
    cases element with
    | file uri =>
      obtain ⟨user₁, sep₁, hgood₁, -, hkept₁⟩ := h.insertNew
        (show Item.IsUser (.file (some uri) none) from rfl) (by simp) hparent (st.lastIndex parent)
      obtain ⟨user₂, sep₂, hgood₂, hkept₂⟩ := ihr hgood₁ fun p hp =>
        hkept₁ p (hparent p hp).1 (hparent p hp).2
      refine ⟨user₂, sep₂, hgood₂, fun x hx hx' => ?_⟩
      obtain ⟨hmem, hnot⟩ := hkept₁ x hx hx'
      exact hkept₂ x hmem hnot
    | group name =>
      obtain ⟨user₁, sep₁, hgood₁, hnew, hkept₁⟩ := h.insertNew
        (show Item.IsUser (.group name) from trivial) (by simp) hparent (st.lastIndex parent)
      have hplace : (st.insertNew (.group name) parent (st.lastIndex parent)).Place sep₁ auto
          (some st.nextRow) := by
        rintro p ⟨⟩
        exact hnew
      obtain ⟨user₂, sep₂, hgood₂, hkept₂⟩ := ihk hgood₁ hplace
      obtain ⟨user₃, sep₃, hgood₃, hkept₃⟩ := ihr hgood₂ fun p hp => by
        obtain ⟨hmem, hnot⟩ := hkept₁ p (hparent p hp).1 (hparent p hp).2
        exact hkept₂ p hmem hnot
      refine ⟨user₃, sep₃, hgood₃, fun x hx hx' => ?_⟩
      obtain ⟨hmem₁, hnot₁⟩ := hkept₁ x hx hx'
      obtain ⟨hmem₂, hnot₂⟩ := hkept₂ x hmem₁ hnot₁
      exact hkept₃ x hmem₂ hnot₂

/-! ## The shape of the rows -/

/-- The first rows on top are those of the user, then there is the separator if there is any, and then
a row for each document without a user row. All other rows are below those of the user. A document is
held by one row at most, and knows it. -/
structure Shaped (st : FileList) : Prop where
  user : ∀ i row, st.rows.tops[i]? = some row → i < st.nUserItems →
    ∃ item, st.itemAt row = some item ∧ item.IsUser
  count : st.nUserItems ≤ st.rows.tops.length
  separator : 0 < st.nUserItems → ∃ row, st.rows.tops[st.nUserItems]? = some row ∧ st.itemAt row = none
  auto : ∀ i row, st.rows.tops[i]? = some row → st.nUserItems ≤ i →
    (i = st.nUserItems → st.nUserItems = 0) → ∃ doc, st.itemAt row = some (.file none (some doc))
  below : ∀ row ∈ st.rows.nodes, row ∉ st.rows.tops → ∃ item, st.itemAt row = some item ∧ item.IsUser
  held : ∀ row ∈ st.rows.nodes, ∀ doc, st.docAt row = some doc →
    doc ∈ st.docs ∧ st.docGetListIter doc = some row

theorem Good.shaped (h : st.Good user sep auto) : st.Shaped := by
  have htops := h.layout.tops_eq
  have hlive {row : ℕ} (hmem : row ∈ st.rows.nodes) (hsep : row ∉ sep) (hauto : row ∉ auto) :
      ∃ item, st.itemAt row = some item ∧ item.IsUser := h.items.user row ⟨hmem, hsep⟩ hauto
  refine ⟨fun i row hrow hlt => ?_, ?_, fun hpos => ?_, fun i row hrow hle hne => ?_,
    fun row hmem hnot => ?_, fun row hmem doc hdoc => ?_⟩
  · rw [← h.user_length] at hlt
    rw [htops, List.append_assoc, List.getElem?_append_left hlt] at hrow
    have huser := List.mem_of_getElem? hrow
    exact hlive (h.layout.mem_of_tops (.inl huser)) (h.sep_nodup.1 huser) (h.sep_nodup.2.1 huser)
  · rw [htops, List.length_append, List.length_append, h.user_length]
    omega
  · have hlen := h.sep_length
    rw [if_neg (Nat.ne_of_gt hpos)] at hlen
    obtain ⟨s, rfl⟩ := List.length_eq_one_iff.1 hlen
    refine ⟨s, ?_, by simp [itemAt, h.sep_item s (by simp)]⟩
    rw [htops, List.append_assoc, ← h.user_length, List.getElem?_append_right (Nat.le_refl _)]
    simp
  · have hmem : row ∈ auto := by
      have hlen := h.sep_length
      rw [htops, List.getElem?_append_right] at hrow
      · exact List.mem_of_getElem? hrow
      · rw [List.length_append, h.user_length, hlen]
        split_ifs <;> omega
    exact h.items.auto row ⟨h.layout.mem_of_tops (.inr (.inr hmem)), fun hsep =>
      h.sep_nodup.2.2 hsep hmem⟩ hmem
  · rw [htops, List.mem_append, List.mem_append, not_or, not_or] at hnot
    exact hlive hmem hnot.1.2 hnot.2
  · have hlive := h.live_of_item hmem (item_ne_none_of_docAt hdoc)
    exact ⟨(h.items.held row doc hlive hdoc).1, h.docGetListIter_eq_some.2 ⟨hlive, hdoc⟩⟩

/-- A document has one row: the user row with its URI, or an automatic one if there is none. -/
def HasRow (st : FileList) (d : Doc) : Prop :=
  ∃ row ∈ st.rows.nodes, (∀ y ∈ st.rows.nodes, st.docAt y = some d ↔ y = row) ∧
    (¬ st.isAuto row ∧ st.uriAt row = st.uri d ∨
      st.isAuto row ∧ ∀ uri, st.uri d = some uri → st.findUri uri = none)

theorem Attached.hasRow (h : st.Attached sep auto d) (hgood : st.Good user sep auto) :
    st.HasRow d := by
  obtain ⟨x, hlive, hdoc, hrow⟩ := h
  have hauto : st.isAuto x ↔ x ∈ auto := by
    rw [hgood.isAuto_iff, List.mem_append]
    exact or_iff_right hlive.2
  refine ⟨x, hlive.1, fun y hy => ⟨fun hdocy => ?_, fun heq => heq ▸ hdoc⟩, ?_⟩
  · exact hgood.items.eq_of_docAt (hgood.live_of_item hy (item_ne_none_of_docAt hdocy)) hlive hdocy hdoc
  · rw [hauto]
    refine hrow.imp_right (And.imp_right fun hnone uri huri => ?_)
    by_contra hfind
    obtain ⟨y, hy⟩ := Option.ne_none_iff_exists'.1 hfind
    obtain ⟨hlivey, huriy, -⟩ := hgood.findUri_eq_some hy
    exact hnone uri huri y hlivey huriy

/-! ## Runs -/

/-- What a call needs. -/
def Fits (st : FileList) : Call → Prop
  | .update docs _ => st.Opens docs
  | .dropRow dest source => st.Drags dest source
  | _ => True

theorem Good.step (h : st.Good user sep auto) {call : Call} (hfits : st.Fits call) :
    ∃ st' user' sep' auto', st.step call = some st' ∧ st'.Good user' sep' auto' := by
  cases call with
  | update docs hnodup =>
    obtain ⟨st', auto', hupdate, hgood, -⟩ := h.update hnodup hfits
    exact ⟨st', user, sep, auto', hupdate, hgood⟩
  | setUri doc uri =>
    exact ⟨_, user, sep, auto, rfl, ⟨h.layout, h.user_length, h.sep_length, h.sep_item⟩,
      ⟨h.items.user, h.items.auto, h.items.inj, h.items.fresh, h.items.held, h.items.row,
        h.items.docs_nodup⟩⟩
  | addGroup path =>
    obtain ⟨user', sep', hgood⟩ := h.addGroup path
    exact ⟨_, user', sep', auto, rfl, hgood⟩
  | removeItems paths => exact h.removeItems paths
  | dropUris isDirectory dest uris =>
    obtain ⟨user', sep', hgood⟩ := h.dropUris isDirectory dest uris
    exact ⟨_, user', sep', auto, rfl, hgood⟩
  | dropRow dest source =>
    obtain ⟨st', user', sep', auto', hdrop, hgood, -⟩ := h.dropTreeModelRow hfits
    exact ⟨st', user', sep', auto', hdrop, hgood⟩

/-- A list that is loaded from some configuration, and any calls that fit. -/
inductive Run : FileList → Prop
  | load (conf : Forest Element) : Run (FileList.load conf init none)
  | step {st st' : FileList} (call : Call) : Run st → st.Fits call → st.step call = some st' → Run st'

theorem Run.good (h : Run st) : ∃ user sep auto, st.Good user sep auto := by
  induction h with
  | load conf =>
    obtain ⟨user, sep, hgood, -⟩ := init_good.load conf place_none
    exact ⟨user, sep, [], hgood⟩
  | step call _ hfits hstep ih =>
    obtain ⟨user, sep, auto, hgood⟩ := ih
    obtain ⟨st', user', sep', auto', hstep', hgood'⟩ := hgood.step hfits
    obtain rfl := Option.some.inj (hstep.symm.trans hstep')
    exact ⟨user', sep', auto', hgood'⟩

end FileList

end Medit.FileListPlugin
