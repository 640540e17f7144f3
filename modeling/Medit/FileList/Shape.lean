import Medit.FileList.Model

/-!
# The shape of the rows

On top there are user rows, then a separator if there is any user row, then automatic rows, and
nothing is below a separator or an automatic row.

## Main definitions

* `Layout` — this, for a forest and the lists on top.

## Main results

* `Layout.placeNested`, `Layout.placeTop`, `Layout.placeSep`, `Layout.placeAuto` — what is put into the
  tree.
* `Layout.withoutNested`, `Layout.withoutUser`, `Layout.withoutSep`, `Layout.withoutAuto` — what is
  taken out.
-/

namespace Medit.FileListPlugin

open LinkedForest

/-- The rows on top are three lists, and the ids are below `next`. -/
structure Layout (rows : Forest ℕ) (next : ℕ) (user sep auto : List ℕ) : Prop where
  tops_eq : rows.tops = user ++ sep ++ auto
  nodup : rows.nodes.Nodup
  fresh : ∀ x ∈ rows.nodes, x < next
  leaf : ∀ x ∈ sep ++ auto, ∀ y ∈ rows.under x, y = x

namespace Layout

variable {rows g kids : Forest ℕ} {next next' i row x y p : ℕ} {user sep auto : List ℕ}

theorem tops_nodup (h : Layout rows next user sep auto) : (user ++ sep ++ auto).Nodup :=
  h.tops_eq ▸ h.nodup.sublist Forest.tops_sublist

theorem mem_of_tops (h : Layout rows next user sep auto) (hx : x ∈ user ∨ x ∈ sep ∨ x ∈ auto) :
    x ∈ rows.nodes := by
  refine Forest.tops_subset ?_
  simpa [h.tops_eq, or_assoc] using hx

theorem mono (h : Layout rows next user sep auto) (hnext : next ≤ next') :
    Layout rows next' user sep auto :=
  ⟨h.tops_eq, h.nodup, fun x hx => Nat.lt_of_lt_of_le (h.fresh x hx) hnext, h.leaf⟩

/-- A row that is above another one is a user row. -/
theorem not_leaf (h : Layout rows next user sep auto) (hy : y ∈ rows.under x) (hne : y ≠ x) :
    x ∉ sep ++ auto := fun hx => hne (h.leaf x hx y hy)

/-! ## Putting -/

theorem placeNested (h : Layout rows next user sep auto) (hp : p ∈ rows.nodes)
    (hleaf : p ∉ sep ++ auto) (hg : g.nodes.Nodup)
    (hnew : ∀ y ∈ g.nodes, y ∉ rows.nodes ∧ y < next) :
    Layout (rows.insertAt p i g) next user sep auto where
  tops_eq := Forest.tops_insertAt.trans h.tops_eq
  nodup := Forest.nodup_insertAt h.nodup hp hg fun y hy => (hnew y hy).1
  fresh y hy := ((Forest.mem_insertAt h.nodup hp).1 hy).elim (fun hy => (hnew y hy).2) (h.fresh y)
  leaf x hx y hy := by
    have hxmem : x ∈ rows.nodes := h.mem_of_tops (.inr (List.mem_append.1 hx))
    have hxg : x ∉ g.nodes := fun hmem => (hnew x hmem).1 hxmem
    rcases (Forest.mem_under_insertAt h.nodup hxg).1 hy with hy | ⟨-, hpx⟩
    · exact h.leaf x hx y hy
    · exact absurd (h.leaf x hx p hpx ▸ hx) hleaf

/-- Rows that are put on top leave what is below the others. -/
theorem insertTops (h : Layout rows next user sep auto) (hg : g.nodes.Nodup)
    (hnew : ∀ y ∈ g.nodes, y ∉ rows.nodes ∧ y < next) :
    (rows.insertTops i g).nodes.Nodup ∧ (∀ x ∈ (rows.insertTops i g).nodes, x < next) ∧
      ∀ x ∈ sep ++ auto, ∀ y ∈ (rows.insertTops i g).under x, y = x := by
  have hmem {y : ℕ} : y ∈ (rows.insertTops i g).nodes ↔ y ∈ g.nodes ∨ y ∈ rows.nodes := by
    rw [Forest.perm_insertTops.mem_iff, List.mem_append]
  refine ⟨?_, fun x hx => (hmem.1 hx).elim (fun hx => (hnew x hx).2) (h.fresh x), fun x hx y hy => ?_⟩
  · rw [Forest.perm_insertTops.nodup_iff, List.nodup_append]
    exact ⟨hg, h.nodup, fun y hy z hz hyz => (hnew y hy).1 (hyz ▸ hz)⟩
  · have hxg : x ∉ g.nodes := fun hmem =>
      (hnew x hmem).1 (h.mem_of_tops (.inr (List.mem_append.1 hx)))
    rw [Forest.under_insertTops_old hxg] at hy
    exact h.leaf x hx y hy

/-- A row with what is below it gets among the user rows. -/
theorem placeTop (h : Layout rows next user sep auto)
    (hg : (Forest.node row kids .nil).nodes.Nodup)
    (hnew : ∀ y ∈ (Forest.node row kids .nil).nodes, y ∉ rows.nodes ∧ y < next)
    (hi : i ≤ user.length) :
    Layout (rows.insertTops i (.node row kids .nil)) next (user.take i ++ row :: user.drop i) sep
      auto := by
  obtain ⟨hnodup, hfresh, hleaf⟩ := h.insertTops (i := i) hg hnew
  refine ⟨?_, hnodup, hfresh, hleaf⟩
  have hle : i ≤ (user ++ sep).length := by simp; omega
  rw [Forest.tops_insertTops (by simp [h.tops_eq]; omega), h.tops_eq,
    List.take_append_of_le_length hle, List.drop_append_of_le_length hle,
    List.take_append_of_le_length hi, List.drop_append_of_le_length hi]
  simp

/-- The separator comes after the user rows. -/
theorem placeSep (h : Layout rows next user [] auto) (hnew : row ∉ rows.nodes ∧ row < next) :
    Layout (rows.insertTops user.length (.node row .nil .nil)) next user [row] auto := by
  obtain ⟨hnodup, hfresh, hleaf⟩ := h.insertTops (i := user.length) (g := .node row .nil .nil)
    (by simp) (by simpa using hnew)
  refine ⟨?_, hnodup, hfresh, fun x hx y hy => ?_⟩
  · rw [Forest.tops_insertTops (by simp [h.tops_eq]), h.tops_eq]
    simp
  · rcases List.mem_append.1 hx with hx | hx
    · obtain rfl : x = row := by simpa using hx
      rw [Forest.under_insertTops_new hnew.1] at hy
      simpa [Forest.under] using hy
    · exact hleaf x (by simpa using hx) y hy

/-- An automatic row comes last. -/
theorem placeAuto (h : Layout rows next user sep auto) (hnew : row ∉ rows.nodes ∧ row < next) :
    Layout (rows.append (.node row .nil .nil)) next user sep (auto ++ [row]) := by
  have hnodes : (rows.append (.node row .nil .nil)).nodes = rows.nodes ++ [row] := by simp
  refine ⟨by simp [h.tops_eq], ?_, fun x hx => ?_, fun x hx y hy => ?_⟩
  · rw [hnodes, List.nodup_append]
    exact ⟨h.nodup, by simp, fun y hy z hz hyz => hnew.1 (by simp_all)⟩
  · rw [hnodes, List.mem_append] at hx
    exact hx.elim (h.fresh x) fun hx => by simp_all
  · by_cases hrow : x = row
    · subst hrow
      rw [Forest.under_append hnew.1] at hy
      simpa [Forest.under] using hy
    · have hx : x ∈ sep ++ auto := by
        rw [← List.append_assoc] at hx
        exact (List.mem_append.1 hx).resolve_right (by simpa using hrow)
      rw [Forest.under_append_left (by simpa using hrow)] at hy
      exact h.leaf x hx y hy

/-! ## Taking out -/

/-- What is left of the rows. -/
theorem without (h : Layout rows next user sep auto) (p : ℕ → Bool) :
    Layout (rows.without p) next (user.filter fun x => !p x) (sep.filter fun x => !p x)
      (auto.filter fun x => !p x) where
  tops_eq := by rw [Forest.tops_without, h.tops_eq, List.filter_append, List.filter_append]
  nodup := h.nodup.sublist Forest.without_sublist
  fresh x hx := h.fresh x (Forest.without_subset hx)
  leaf x hx y hy := by
    rw [← List.filter_append] at hx
    exact h.leaf x (List.mem_of_mem_filter hx) y (Forest.under_without h.nodup hy)

end Layout

/-! ## Items -/

/-- What a user row has. -/
def Item.IsUser : Item → Prop
  | .file uri _ => uri.isSome
  | .group _ => True

namespace FileList

/-- A row with an item. -/
def Live (st : FileList) (sep : List ℕ) (row : ℕ) : Prop := row ∈ st.rows.nodes ∧ row ∉ sep

/-- The items of some rows, of which some are automatic, and the documents: a row and the document that
it holds know each other. -/
structure Items (st : FileList) (live auto : ℕ → Prop) : Prop where
  user : ∀ x, live x → ¬ auto x → ∃ item, st.itemAt x = some item ∧ item.IsUser
  auto : ∀ x, live x → auto x → ∃ doc, st.itemAt x = some (.file none (some doc))
  inj : ∀ x y, live x → live y → st.item x = st.item y → x = y
  fresh : ∀ x it, live x → st.item x = some it → it < st.nextItem
  held : ∀ x doc, live x → st.docAt x = some doc → doc ∈ st.docs ∧ st.docRow doc = some x
  row : ∀ doc x, st.docRow doc = some x →
    doc ∈ st.docs ∧ (x < st.nextRow ∧ (st.item x).isSome) ∧ (live x → st.docAt x = some doc)
  docs_nodup : st.docs.Nodup

/-- The rows have their shape: as many user rows on top as counted, and a separator if there is any. -/
structure Frame (st : FileList) (user sep auto : List ℕ) : Prop where
  layout : Layout st.rows st.nextRow user sep auto
  user_length : user.length = st.nUserItems
  sep_length : sep.length = if st.nUserItems = 0 then 0 else 1
  sep_item : ∀ x ∈ sep, st.item x = none

/-- The rows have their shape, and the items and documents fit. -/
structure Good (st : FileList) (user sep auto : List ℕ) : Prop extends
    Frame st user sep auto where
  items : st.Items (st.Live sep) (· ∈ auto)

variable {st st' : FileList} {live live' auto auto' : ℕ → Prop}

theorem Items.item_isSome (h : st.Items live auto) {x : ℕ} (hx : live x) : (st.item x).isSome := by
  by_cases hauto : auto x
  · obtain ⟨doc, hitem⟩ := h.auto x hx hauto
    cases hsome : st.item x <;> simp_all [itemAt]
  · obtain ⟨item, hitem, -⟩ := h.user x hx hauto
    cases hsome : st.item x <;> simp_all [itemAt]

theorem itemAt_congr {x y : ℕ} (hitem : st'.item x = st.item y) (hitems : st'.items = st.items) :
    st'.itemAt x = st.itemAt y := by
  rw [itemAt, itemAt, hitem, hitems]

theorem docAt_congr {x y : ℕ} (h : st'.itemAt x = st.itemAt y) : st'.docAt x = st.docAt y := by
  rw [docAt, docAt, h]

theorem uriAt_congr {x y : ℕ} (h : st'.itemAt x = st.itemAt y) : st'.uriAt x = st.uriAt y := by
  rw [uriAt, uriAt, h]

/-- Rows come from others with the same item, and what has become another row holds no document. -/
theorem Items.transfer (h : st.Items live auto) (σ : ℕ → ℕ)
    (hsame : st'.items = st.items ∧ st'.docs = st.docs ∧ st'.docRow = st.docRow ∧
      st'.nextItem = st.nextItem)
    (hnext : st.nextRow ≤ st'.nextRow) (hold : ∀ x < st.nextRow, st'.item x = st.item x)
    (hfrom : ∀ x, live' x → live (σ x) ∧ st'.item x = st.item (σ x))
    (hinj : ∀ x y, live' x → live' y → σ x = σ y → x = y)
    (hauto : ∀ x, live' x → (auto' x ↔ auto (σ x)))
    (hstay : ∀ x, live' x → x < st.nextRow → σ x = x)
    (hmoved : ∀ x, live' x → σ x ≠ x → st.docAt (σ x) = none) : st'.Items live' auto' := by
  obtain ⟨hitems, hdocs, hdocRow, hnextItem⟩ := hsame
  have hitemAt {x : ℕ} (hx : live' x) : st'.itemAt x = st.itemAt (σ x) :=
    itemAt_congr (hfrom x hx).2 hitems
  refine ⟨fun x hx hnot => ?_, fun x hx hx' => ?_, fun x y hx hy heq => ?_, fun x it hx hit => ?_,
    fun x doc hx hdoc => ?_, fun doc x hrow => ?_, hdocs ▸ h.docs_nodup⟩
  · obtain ⟨item, hitem, huser⟩ := h.user (σ x) (hfrom x hx).1 (mt (hauto x hx).2 hnot)
    exact ⟨item, (hitemAt hx).trans hitem, huser⟩
  · obtain ⟨doc, hitem⟩ := h.auto (σ x) (hfrom x hx).1 ((hauto x hx).1 hx')
    exact ⟨doc, (hitemAt hx).trans hitem⟩
  · refine hinj x y hx hy (h.inj _ _ (hfrom x hx).1 (hfrom y hy).1 ?_)
    rw [← (hfrom x hx).2, ← (hfrom y hy).2, heq]
  · rw [hnextItem]
    exact h.fresh (σ x) it (hfrom x hx).1 ((hfrom x hx).2 ▸ hit)
  · rw [docAt_congr (hitemAt hx)] at hdoc
    have hsame : σ x = x := by
      by_contra hne
      simp [hmoved x hx hne] at hdoc
    obtain ⟨hmem, hrow⟩ := h.held (σ x) doc (hfrom x hx).1 hdoc
    rw [hdocs, hdocRow, hrow, hsame]
    exact ⟨hmem, rfl⟩
  · rw [hdocRow] at hrow
    obtain ⟨hmem, ⟨hlt, hsome⟩, hlive⟩ := h.row doc x hrow
    refine ⟨hdocs ▸ hmem, ⟨Nat.lt_of_lt_of_le hlt hnext, hold x hlt ▸ hsome⟩, fun hx => ?_⟩
    have hsame := hstay x hx hlt
    rw [docAt_congr (hitemAt hx), hsame]
    exact hlive (hsame ▸ (hfrom x hx).1)

/-- Fewer rows. -/
theorem Items.mono (h : st.Items live auto) (hlive : ∀ x, live' x → live x)
    (hauto : ∀ x, live' x → (auto' x ↔ auto x)) : st.Items live' auto' :=
  h.transfer id ⟨rfl, rfl, rfl, rfl⟩ (Nat.le_refl _) (fun _ _ => rfl) (fun x hx => ⟨hlive x hx, rfl⟩) (fun _ _ _ _ heq => heq)
    hauto (fun _ _ _ => rfl) fun _ _ hne => absurd rfl hne

/-- A row with an item that is new, without a document. -/
theorem Items.insert (h : st.Items live auto) {row : ℕ} {item : Item}
    (huser : item.IsUser) (hdoc : ∀ uri, ∀ doc, item ≠ .file uri (some doc))
    (hsame : st'.items = Function.update st.items st.nextItem item ∧ st'.docs = st.docs ∧
      st'.docRow = st.docRow ∧ st'.nextItem = st.nextItem + 1)
    (hnext : st.nextRow ≤ st'.nextRow) (hrow : st.nextRow ≤ row)
    (hnew : st'.item row = some st.nextItem) (hkept : ∀ x < st.nextRow, st'.item x = st.item x)
    (hold : ∀ x, live x → x ≠ row ∧ st'.item x = st.item x)
    (hlive : ∀ x, live' x ↔ x = row ∨ live x) (hauto : ∀ x, live' x → (auto' x ↔ auto x ∧ x ≠ row)) :
    st'.Items live' auto' := by
  obtain ⟨hitems, hdocs, hdocRow, hnextItem⟩ := hsame
  have hitemNew : st'.itemAt row = some item := by simp [itemAt, hnew, hitems]
  have hdocNew : st'.docAt row = none := by
    cases item with
    | group name => simp [docAt, hitemNew]
    | file uri doc =>
      cases doc with
      | none => simp [docAt, hitemNew]
      | some doc => exact absurd rfl (hdoc uri doc)
  have hitemAt {x : ℕ} (hx : live x) : st'.itemAt x = st.itemAt x := by
    cases hit : st.item x with
    | none => simp [itemAt, (hold x hx).2, hit]
    | some it =>
      have hlt := h.fresh x it hx hit
      simp [itemAt, (hold x hx).2, hit, hitems, Function.update_of_ne (Nat.ne_of_lt hlt)]
  refine ⟨fun x hx hnot => ?_, fun x hx hx' => ?_, fun x y hx hy heq => ?_, fun x it hx hit => ?_,
    fun x doc hx hdoc => ?_, fun doc x hrow' => ?_, hdocs ▸ h.docs_nodup⟩
  · rcases (hlive x).1 hx with rfl | hx'
    · exact ⟨item, hitemNew, huser⟩
    · obtain ⟨item, hitem, huser⟩ := h.user x hx' fun ha => hnot ((hauto x hx).2 ⟨ha, (hold x hx').1⟩)
      exact ⟨item, (hitemAt hx').trans hitem, huser⟩
  · obtain ⟨hauto, hne⟩ := (hauto x hx).1 hx'
    have hx := ((hlive x).1 hx).resolve_left hne
    obtain ⟨doc, hitem⟩ := h.auto x hx hauto
    exact ⟨doc, (hitemAt hx).trans hitem⟩
  · have hlt {z : ℕ} (hz : live z) : st'.item z ≠ some st.nextItem := fun heq =>
      absurd (h.fresh z _ hz ((hold z hz).2 ▸ heq)) (Nat.lt_irrefl _)
    rcases (hlive x).1 hx with rfl | hx <;> rcases (hlive y).1 hy with rfl | hy
    · rfl
    · exact absurd (heq.symm.trans hnew) (hlt hy)
    · exact absurd (heq.trans hnew) (hlt hx)
    · exact h.inj x y hx hy ((hold x hx).2 ▸ (hold y hy).2 ▸ heq)
  · rw [hnextItem]
    rcases (hlive x).1 hx with rfl | hx
    · obtain rfl : st.nextItem = it := Option.some.inj (hnew.symm.trans hit)
      exact Nat.lt_succ_self _
    · exact Nat.lt_succ_of_lt (h.fresh x it hx ((hold x hx).2 ▸ hit))
  · rcases (hlive x).1 hx with rfl | hx
    · simp [hdocNew] at hdoc
    · rw [hdocs, hdocRow]
      exact h.held x doc hx (docAt_congr (hitemAt hx) ▸ hdoc)
  · rw [hdocRow] at hrow'
    obtain ⟨hmem, ⟨hlt, hsome⟩, hx'⟩ := h.row doc x hrow'
    refine ⟨hdocs ▸ hmem, ⟨Nat.lt_of_lt_of_le hlt hnext, hkept x hlt ▸ hsome⟩, fun hx => ?_⟩
    have hx := ((hlive x).1 hx).resolve_left fun heq => by omega
    rw [docAt_congr (hitemAt hx)]
    exact hx' hx

/-- The item of a row that is another one in its place, of which the others hear nothing. -/
theorem itemAt_update (h : st.Items live auto) {x it : ℕ} (hx : live x) (hit : st.item x = some it)
    (item : Item) (hitem : st'.item = st.item) (hitems : st'.items = Function.update st.items it item) :
    st'.itemAt x = some item ∧ ∀ y, live y → y ≠ x → st'.itemAt y = st.itemAt y := by
  refine ⟨by simp [itemAt, hitem, hitems, hit], fun y hy hne => ?_⟩
  have hother : st.item y ≠ some it := fun heq => hne (h.inj y x hy hx (heq.trans hit.symm))
  cases hcase : st.item y with
  | none => simp [itemAt, hitem, hcase]
  | some it' =>
    have hne' : it' ≠ it := fun heq => hother (heq ▸ hcase)
    simp [itemAt, hitem, hitems, hcase, Function.update_of_ne hne']

/-- A file row gets another document or none, and the references follow. -/
theorem Items.setFile (h : st.Items live auto) {x it : ℕ} (hx : live x) (hit : st.item x = some it)
    {uri : Option String} {doc : Option Doc} (huri : uri.isSome)
    (hitem : st'.item = st.item) (hitems : st'.items = Function.update st.items it (.file uri doc))
    (hnextItem : st'.nextItem = st.nextItem) (hnextRow : st'.nextRow = st.nextRow)
    (hdocs : st.docs ⊆ st'.docs) (hnodup : st'.docs.Nodup)
    (hothers : ∀ y d, live y → y ≠ x → st.docAt y = some d → st'.docRow d = st.docRow d)
    (hdoc : ∀ d, doc = some d → d ∈ st'.docs ∧ st'.docRow d = some x)
    (hrow : ∀ d y, st'.docRow d = some y → d ∈ st'.docs ∧ (y < st.nextRow ∧ (st.item y).isSome) ∧
      (y = x → doc = some d) ∧ (y ≠ x → live y → st.docAt y = some d))
    (hauto : ∀ y, live y → (auto' y ↔ auto y ∧ y ≠ x)) : st'.Items live auto' := by
  obtain ⟨hself, hsame⟩ := itemAt_update h hx hit (.file uri doc) hitem hitems
  have hdocSelf : st'.docAt x = doc := by simp [docAt, hself]
  refine ⟨fun y hy hnot => ?_, fun y hy hy' => ?_, fun y z hy hz heq => ?_, fun y it' hy hit' => ?_,
    fun y d hy hd => ?_, fun d y hy => ?_, hnodup⟩
  · by_cases hne : y = x
    · exact ⟨.file uri doc, hne ▸ hself, huri⟩
    · obtain ⟨item, hitem, huser⟩ := h.user y hy fun ha => hnot ((hauto y hy).2 ⟨ha, hne⟩)
      exact ⟨item, (hsame y hy hne).trans hitem, huser⟩
  · obtain ⟨ha, hne⟩ := (hauto y hy).1 hy'
    obtain ⟨d, hitem⟩ := h.auto y hy ha
    exact ⟨d, (hsame y hy hne).trans hitem⟩
  · exact h.inj y z hy hz (hitem ▸ heq)
  · rw [hnextItem]
    exact h.fresh y it' hy (hitem ▸ hit')
  · by_cases hne : y = x
    · subst hne
      exact hdoc d (hdocSelf ▸ hd)
    · rw [docAt_congr (hsame y hy hne)] at hd
      obtain ⟨hmem, hd'⟩ := h.held y d hy hd
      exact ⟨hdocs hmem, (hothers y d hy hne hd).trans hd'⟩
  · obtain ⟨hmem, hlt, hself', hother⟩ := hrow d y hy
    refine ⟨hmem, ⟨hnextRow ▸ hlt.1, hitem ▸ hlt.2⟩, fun hlive => ?_⟩
    by_cases hne : y = x
    · rw [hne, hdocSelf]
      exact hself' hne
    · rw [docAt_congr (hsame y hlive hne)]
      exact hother hne hlive

/-- A row without its document, and the document without a row. -/
theorem Items.release (h : st.Items live auto) {x it : ℕ} (hx : live x) (hit : st.item x = some it)
    {uri : Option String} {doc : Doc} (hheld : st.docAt x = some doc) (huri : uri.isSome)
    (hauto : ∀ y, live y → (auto' y ↔ auto y ∧ y ≠ x)) :
    Items { st with
      items := Function.update st.items it (.file uri none)
      docRow := Function.update st.docRow doc none } live auto' := by
  have hrow := (h.held x doc hx hheld).2
  refine h.setFile hx hit huri rfl rfl rfl rfl (fun _ hd => hd) h.docs_nodup
    (fun y d hy hne hd => ?_) (fun d hd => by simp at hd) (fun d y hy => ?_) hauto
  · refine Function.update_of_ne ?_ _ _
    rintro rfl
    exact hne (Option.some.inj ((h.held y d hy hd).2.symm.trans hrow))
  · have hne : d ≠ doc := by
      rintro rfl
      simp at hy
    have hold : st.docRow d = some y := by simpa [Function.update_of_ne hne] using hy
    obtain ⟨hmem, hlt, hlive⟩ := h.row d y hold
    refine ⟨hmem, hlt, fun heq => ?_, fun _ => hlive⟩
    subst heq
    exact absurd (Option.some.inj ((hlive hx).symm.trans hheld)) hne

/-! ## Rows that are put in -/

variable {user sep auto : List ℕ}

/-- What `file_list_insert_row` does to a list: there is one row more, and a separator if there was
none. -/
structure Inserted (st st' : FileList) (it : ℕ) (parent : Option ℕ) (sep auto user' sep' : List ℕ) :
    Prop where
  frame : Frame st' user' sep' auto
  under_iff : ∀ y ∈ st.rows.nodes, (∀ p ∈ parent, p ∉ st.rows.under y) →
    ∀ z, z ∈ st'.rows.under y ↔ z ∈ st.rows.under y
  live_iff : ∀ x, st'.Live sep' x ↔ x = st.nextRow ∨ st.Live sep x
  item_new : st'.item st.nextRow = some it
  item_old : ∀ x < st.nextRow, st'.item x = st.item x
  not_auto : st.nextRow ∉ auto
  next : st.nextRow < st'.nextRow
  items : st'.items = st.items
  docs : st'.docs = st.docs
  docRow : st'.docRow = st.docRow
  nextItem : st'.nextItem = st.nextItem

theorem Frame.next_not_mem (h : st.Frame user sep auto) {x : ℕ} (hx : st.nextRow ≤ x) :
    x ∉ st.rows.nodes := fun hmem => absurd (h.layout.fresh x hmem) (Nat.not_lt.2 hx)

/-- A place for a row: on top, or below a user row. -/
def Place (st : FileList) (sep auto : List ℕ) (parent : Option ℕ) : Prop :=
  ∀ p ∈ parent, p ∈ st.rows.nodes ∧ p ∉ sep ++ auto

theorem Frame.insertRow (h : st.Frame user sep auto) (it : ℕ) {parent : Option ℕ}
    (hparent : st.Place sep auto parent) (index : ℕ) :
    ∃ user' sep', Inserted st (st.insertRow it parent index) it parent sep auto user' sep' := by
  have hlt : st.nextRow < st.nextRow + 1 := Nat.lt_succ_self _
  have hnot : st.nextRow ∉ st.rows.nodes := h.next_not_mem (Nat.le_refl _)
  have hauto : st.nextRow ∉ auto := fun hmem => hnot (h.layout.mem_of_tops (.inr (.inr hmem)))
  have hsep : ∀ x ∈ sep, x ≠ st.nextRow := fun x hx heq =>
    hnot (heq ▸ h.layout.mem_of_tops (.inr (.inl hx)))
  have hlayout := h.layout.mono (Nat.le_succ st.nextRow)
  have hnew : ∀ y ∈ (Forest.node st.nextRow .nil .nil).nodes,
      y ∉ st.rows.nodes ∧ y < st.nextRow + 1 := by simpa using hnot
  cases parent with
  | some p =>
    obtain ⟨hp, hleaf⟩ := hparent p rfl
    refine ⟨user, sep, ?_⟩
    simp only [FileList.insertRow, reduceCtorEq, if_false, false_and, Forest.place]
    refine ⟨⟨hlayout.placeNested hp hleaf (by simp) hnew, h.user_length, h.sep_length,
      fun x hx => ?_⟩, fun y hy hnone z => ?_, fun x => ?_, by simp, fun x hx => ?_, hauto, hlt, rfl,
      rfl, rfl, rfl⟩
    · simpa [Function.update_of_ne (hsep x hx)] using h.sep_item x hx
    · have hne : y ∉ (Forest.node st.nextRow .nil .nil).nodes := by
        simpa using ne_of_mem_of_not_mem hy hnot
      simp [Forest.mem_under_insertAt h.layout.nodup hne, hnone p rfl]
    · simp only [Live, Forest.mem_insertAt h.layout.nodup hp, Forest.nodes_node, Forest.nodes_nil,
        List.append_nil, List.mem_singleton]
      constructor
      · rintro ⟨rfl | hx, hnsep⟩
        · exact .inl rfl
        · exact .inr ⟨hx, hnsep⟩
      · rintro (rfl | ⟨hx, hnsep⟩)
        · exact ⟨.inl rfl, fun hmem => hsep _ hmem rfl⟩
        · exact ⟨.inr hx, hnsep⟩
    · exact Function.update_of_ne (Nat.ne_of_lt hx) _ _
  | none =>
    have htop := hlayout.placeTop (i := min index st.nUserItems) (by simp) hnew
      (h.user_length ▸ Nat.min_le_right _ _)
    have hmem {x : ℕ} : x ∈ (st.rows.insertTops (min index st.nUserItems)
        (.node st.nextRow .nil .nil)).nodes ↔ x = st.nextRow ∨ x ∈ st.rows.nodes := by
      rw [Forest.perm_insertTops.mem_iff]
      simp
    by_cases hn : st.nUserItems = 0
    · -- the first user row comes with the separator
      obtain rfl := List.length_eq_zero_iff.1 (h.user_length.trans hn)
      obtain rfl := List.length_eq_zero_iff.1 (h.sep_length.trans (if_pos hn))
      have hfirst : st.insertRow it none index =
          { st with
            rows := (st.rows.insertTops (min index st.nUserItems)
              (.node st.nextRow .nil .nil)).insertTops 1 (.node (st.nextRow + 1) .nil .nil)
            item := Function.update (Function.update st.item st.nextRow (some it)) (st.nextRow + 1) none
            nUserItems := 1
            nextRow := st.nextRow + 2 } := by
        simp [FileList.insertRow, insertSeparator, Forest.place, hn]
      have hsep' : st.nextRow + 1 ∉ (st.rows.insertTops (min index st.nUserItems)
          (.node st.nextRow .nil .nil)).nodes := fun hx =>
        absurd (htop.fresh _ hx) (Nat.lt_irrefl _)
      have hlayout' := (htop.mono (Nat.le_succ _)).placeSep ⟨hsep', Nat.lt_succ_self _⟩
      rw [hfirst]
      refine ⟨[st.nextRow], [st.nextRow + 1], ⟨?_, rfl, rfl, ?_⟩, fun y hy _ z => ?_, fun x => ?_, ?_,
        fun x hx => ?_, hauto, by simp, rfl, rfl, rfl, rfl⟩
      · simpa using hlayout'
      · simp
      · have hlt := h.layout.fresh y hy
        have hne : y ∉ (Forest.node st.nextRow .nil .nil).nodes := by simpa using Nat.ne_of_lt hlt
        have hne' : y ∉ (Forest.node (st.nextRow + 1) .nil .nil).nodes := by
          simp only [Forest.nodes_node, Forest.nodes_nil, List.append_nil, List.mem_singleton]
          omega
        simp only [Forest.under_insertTops_old hne', Forest.under_insertTops_old hne]
      · have hold : x ∈ st.rows.nodes → x ≠ st.nextRow + 1 := fun hx heq => by
          have hlt := h.layout.fresh x hx
          omega
        simp only [Live, Forest.perm_insertTops.mem_iff, List.mem_append, Forest.nodes_node,
          Forest.nodes_nil, List.append_nil, List.mem_singleton, List.not_mem_nil, not_false_eq_true,
          and_true]
        grind
      · simp
      · simp only [Function.update_of_ne (show x ≠ st.nextRow + 1 by omega),
          Function.update_of_ne (show x ≠ st.nextRow by omega)]
    · have hmore : st.insertRow it none index =
          { st with
            rows := st.rows.insertTops (min index st.nUserItems) (.node st.nextRow .nil .nil)
            item := Function.update st.item st.nextRow (some it)
            nUserItems := st.nUserItems + 1
            nextRow := st.nextRow + 1 } := by
        simp [FileList.insertRow, Forest.place, hn]
      rw [hmore]
      refine ⟨_, sep, ⟨htop, ?_, ?_, fun x hx => ?_⟩, fun y hy _ z => ?_, fun x => ?_, by simp,
        fun x hx => ?_, hauto, Nat.lt_succ_self _, rfl, rfl, rfl, rfl⟩
      · have hle := Nat.min_le_right index st.nUserItems
        have hlen := h.user_length
        simp only [List.length_append, List.length_take, List.length_cons, List.length_drop]
        omega
      · simpa [hn] using h.sep_length
      · simpa [Function.update_of_ne (hsep x hx)] using h.sep_item x hx
      · have hne : y ∉ (Forest.node st.nextRow .nil .nil).nodes := by
          simpa using ne_of_mem_of_not_mem hy hnot
        simp only [Forest.under_insertTops_old hne]
      · simp only [Live, hmem]
        constructor
        · rintro ⟨rfl | hx, hnsep⟩
          · exact .inl rfl
          · exact .inr ⟨hx, hnsep⟩
        · rintro (rfl | ⟨hx, hnsep⟩)
          · exact ⟨.inl rfl, fun hmem => hsep _ hmem rfl⟩
          · exact ⟨.inr hx, hnsep⟩
      · exact Function.update_of_ne (Nat.ne_of_lt hx) _ _

/-- A new item gets its row. -/
theorem Good.insertNew (h : st.Good user sep auto) {item : Item} (huser : item.IsUser)
    (hdoc : ∀ uri doc, item ≠ .file uri (some doc)) {parent : Option ℕ}
    (hparent : st.Place sep auto parent) (index : ℕ) :
    ∃ user' sep', (st.insertNew item parent index).Good user' sep' auto ∧
      (st.nextRow ∈ (st.insertNew item parent index).rows.nodes ∧ st.nextRow ∉ sep' ++ auto) ∧
      ∀ x ∈ st.rows.nodes, x ∉ sep ++ auto →
        x ∈ (st.insertNew item parent index).rows.nodes ∧ x ∉ sep' ++ auto := by
  have hframe : Frame { st with
      items := Function.update st.items st.nextItem item
      nextItem := st.nextItem + 1 } user sep auto :=
    ⟨h.layout, h.user_length, h.sep_length, h.sep_item⟩
  obtain ⟨user', sep', hin⟩ := hframe.insertRow st.nextItem hparent index
  refine ⟨user', sep', ⟨hin.frame, ?_⟩, ?_, fun x hx hnot => ?_⟩
  · refine h.items.insert huser hdoc ⟨hin.items, hin.docs, hin.docRow, hin.nextItem⟩
      (Nat.le_of_lt hin.next) (Nat.le_refl _) hin.item_new hin.item_old
      (fun x hx => ⟨?_, hin.item_old x (h.layout.fresh x hx.1)⟩)
      hin.live_iff fun x hx => ⟨fun hauto => ⟨hauto, ?_⟩, And.left⟩
    · rintro rfl
      exact h.next_not_mem (Nat.le_refl _) hx.1
    · rintro rfl
      exact hin.not_auto hauto
  · obtain ⟨hmem, hnsep⟩ := (hin.live_iff st.nextRow).2 (.inl rfl)
    exact ⟨hmem, fun hx => (List.mem_append.1 hx).elim hnsep hin.not_auto⟩
  · rw [List.mem_append, not_or] at hnot
    obtain ⟨hmem, hnsep⟩ := (hin.live_iff x).2 (.inr ⟨hx, hnot.1⟩)
    exact ⟨hmem, fun hx => (List.mem_append.1 hx).elim hnsep hnot.2⟩

/-! ## Rows that are taken out -/

theorem Frame.isAuto_iff (h : st.Frame user sep auto) {x : ℕ} : st.isAuto x ↔ x ∈ sep ++ auto := by
  rw [isAuto, decide_eq_true_iff, h.layout.tops_eq, List.append_assoc, ← h.user_length, List.drop_left]

/-- What `file_list_remove_row` does to a list: a row is away with what is below it. -/
structure Removed (st st' : FileList) (x : ℕ) (sep auto sep' auto' : List ℕ) : Prop where
  live_iff : ∀ y, st'.Live sep' y ↔ st.Live sep y ∧ y ∉ st.rows.under x
  auto_iff : ∀ y, y ∈ auto' ↔ y ∈ auto ∧ y ≠ x
  item : st'.item = st.item
  items : st'.items = st.items
  docs : st'.docs = st.docs
  docRow : st'.docRow = st.docRow
  uri : st'.uri = st.uri
  nextRow : st'.nextRow = st.nextRow
  nextItem : st'.nextItem = st.nextItem

theorem Frame.sep_nodup (h : st.Frame user sep auto) {x : ℕ} :
    (x ∈ user → x ∉ sep) ∧ (x ∈ user → x ∉ auto) ∧ (x ∈ sep → x ∉ auto) := by
  have hnodup := h.layout.tops_nodup
  simp only [List.append_assoc, List.nodup_append, List.mem_append] at hnodup
  grind

/-- A row that is not counted goes. -/
theorem Frame.without (h : st.Frame user sep auto) {x : ℕ} (huser : x ∉ user) (hsep : x ∉ sep) :
    Frame { st with rows := st.rows.without (· = x) } user sep (auto.filter (· ≠ x)) ∧
      Removed st { st with rows := st.rows.without (· = x) } x sep auto sep
        (auto.filter (· ≠ x)) := by
  have hfilter {l : List ℕ} (hl : x ∉ l) : l.filter (fun y => !decide (y = x)) = l :=
    List.filter_eq_self.2 fun y hy => by simpa using ne_of_mem_of_not_mem hy hl
  have hlayout := h.layout.without (· = x)
  rw [hfilter huser, hfilter hsep] at hlayout
  refine ⟨⟨by simpa using hlayout, h.user_length, h.sep_length, h.sep_item⟩,
    ⟨fun y => ?_, fun y => by simp, rfl, rfl, rfl, rfl, rfl, rfl, rfl⟩⟩
  simp only [Live, Forest.mem_without_self h.layout.nodup]
  tauto

theorem Frame.removeRow (h : st.Frame user sep auto) {x : ℕ} (hx : x ∈ st.rows.nodes)
    (hsep : x ∉ sep) :
    ∃ st' user' sep' auto', st.removeRow x = some st' ∧ st'.Frame user' sep' auto' ∧
      Removed st st' x sep auto sep' auto' := by
  by_cases huser : x ∈ user
  · have htop : st.rows.parentOf x = none := by
      rw [Forest.parentOf_eq_none h.layout.nodup hx, h.layout.tops_eq]
      simp [huser]
    have hnot : ¬ st.isAuto x := by
      rw [h.isAuto_iff, List.mem_append]
      exact fun hmem => hmem.elim (h.sep_nodup.1 huser) (h.sep_nodup.2.1 huser)
    have hn : st.nUserItems ≠ 0 := by
      rw [← h.user_length]
      exact fun heq => by simp [List.length_eq_zero_iff.1 heq] at huser
    have hfilter {l : List ℕ} (hl : x ∉ l) : l.filter (fun y => !decide (y = x)) = l :=
      List.filter_eq_self.2 fun y hy => by simpa using ne_of_mem_of_not_mem hy hl
    have hlayout := h.layout.without (· = x)
    rw [hfilter hsep, hfilter (h.sep_nodup.2.1 huser)] at hlayout
    have hlen : (user.filter fun y => !decide (y = x)).length = st.nUserItems - 1 := by
      have hnodup : user.Nodup := by
        have hnodup := h.layout.tops_nodup
        simp only [List.append_assoc, List.nodup_append] at hnodup
        exact hnodup.1
      have herase : user.erase x = user.filter fun y => !decide (y = x) := by
        rw [hnodup.erase_eq_filter]
        congr
      rw [← herase, List.length_erase_of_mem huser, h.user_length]
    have hlive (y : ℕ) : y ∈ (st.rows.without (· = x)).nodes ∧ y ∉ sep ↔
        st.Live sep y ∧ y ∉ st.rows.under x := by
      simp only [Live, Forest.mem_without_self h.layout.nodup]
      tauto
    by_cases hlast : st.nUserItems - 1 = 0
    · -- the separator is what comes first now
      obtain ⟨s, rfl⟩ := List.length_eq_one_iff.1 (h.sep_length.trans (if_neg hn))
      have hnil := List.length_eq_zero_iff.1 (hlen.trans hlast)
      have hhead : (st.rows.without (· = x)).tops.head? = some s := by
        rw [hlayout.tops_eq, hnil]
        rfl
      have hs : s ∉ auto := h.sep_nodup.2.2 (by simp)
      have hauto : auto.filter (fun y => !decide (y = s)) = auto :=
        List.filter_eq_self.2 fun y hy => by simpa using ne_of_mem_of_not_mem hy hs
      have hlayout' := hlayout.without (· = s)
      rw [hnil, hauto] at hlayout'
      refine ⟨{ st with
          nUserItems := st.nUserItems - 1
          rows := (st.rows.without (· = x)).without (· = s) }, [], [], auto, ?_,
        ⟨by simpa using hlayout', by simp [hlast], by simp [hlast], by simp⟩,
        ⟨fun y => ?_, fun y => ?_, rfl, rfl, rfl, rfl, rfl, rfl, rfl⟩⟩
      · simp [FileList.removeRow, htop, hnot, hn, hlast, hhead]
      · have hleaf : y ∈ (st.rows.without (· = x)).under s ↔ y = s := by
          refine ⟨hlayout.leaf s (by simp) y, ?_⟩
          rintro rfl
          exact Forest.mem_under_self (hlayout.mem_of_tops (by simp))
        rw [← hlive]
        simp [Live, Forest.mem_without_self hlayout.nodup, hleaf]
      · have hx' := h.sep_nodup.2.1 huser
        exact ⟨fun hy => ⟨hy, ne_of_mem_of_not_mem hy hx'⟩, And.left⟩
    · refine ⟨{ st with
          nUserItems := st.nUserItems - 1
          rows := st.rows.without (· = x) }, _, sep, auto, ?_,
        ⟨hlayout, hlen, ?_, h.sep_item⟩,
        ⟨hlive, fun y => ?_, rfl, rfl, rfl, rfl, rfl, rfl, rfl⟩⟩
      · simp [FileList.removeRow, htop, hnot, hn, hlast]
      · rw [h.sep_length, if_neg hn, if_neg hlast]
      · have hx' := h.sep_nodup.2.1 huser
        exact ⟨fun hy => ⟨hy, ne_of_mem_of_not_mem hy hx'⟩, And.left⟩
  · obtain ⟨hframe, hremoved⟩ := h.without huser hsep
    refine ⟨_, user, sep, _, if_neg ?_, hframe, hremoved⟩
    rintro ⟨htop, hnot⟩
    rw [Forest.parentOf_eq_none h.layout.nodup hx, h.layout.tops_eq, List.append_assoc,
      List.mem_append] at htop
    exact hnot (h.isAuto_iff.2 (htop.resolve_left huser))

/-- A row goes with its items; the documents that they hold have no row then. -/
theorem Good.removeRow (h : st.Good user sep auto) {x : ℕ} (hx : x ∈ st.rows.nodes)
    (hsep : x ∉ sep) :
    ∃ st' user' sep' auto', st.removeRow x = some st' ∧ st'.Good user' sep' auto' ∧
      Removed st st' x sep auto sep' auto' := by
  obtain ⟨st', user', sep', auto', heq, hframe, hremoved⟩ := h.toFrame.removeRow hx hsep
  refine ⟨st', user', sep', auto', heq, ⟨hframe, ?_⟩, hremoved⟩
  refine h.items.transfer id
    ⟨hremoved.items, hremoved.docs, hremoved.docRow, hremoved.nextItem⟩
    (Nat.le_of_eq hremoved.nextRow.symm) (fun _ _ => by rw [hremoved.item]) (fun y hy => ⟨((hremoved.live_iff y).1 hy).1, ?_⟩)
    (fun _ _ _ _ heq => heq) (fun y hy => ?_) (fun _ _ _ => rfl) fun _ _ hne => absurd rfl hne
  · rw [hremoved.item]
    rfl
  · rw [hremoved.auto_iff]
    refine and_iff_left ?_
    rintro rfl
    exact ((hremoved.live_iff y).1 hy).2 (Forest.mem_under_self hx)

end FileList

end Medit.FileListPlugin
