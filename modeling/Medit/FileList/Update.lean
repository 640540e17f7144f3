import Medit.FileList.Moves

/-!
# Documents in the list

An update takes the automatic rows away, gives each open document a row, and takes the rows of the
closed documents away. A document gets the row with its URI if there is one.

## Main definitions

* `Attached` — a document has the row that it should have.

## Main results

* `Good.removeAutoItems`, `Good.updateDoc`, `Good.removeDoc` — the parts of an update.
* `Good.update` — an update gives each open document its row.
-/

namespace Medit.FileListPlugin

open LinkedForest

namespace FileList

variable {st st' : FileList} {user sep auto : List ℕ} {x y it : ℕ} {d e : Doc}

/-! ## Rows and what they have -/

theorem Frame.live_iff (h : st.Frame user sep auto) :
    st.Live sep x ↔ x ∈ st.rows.nodes ∧ (st.item x ≠ none ∨ x ∉ sep) := by
  refine and_congr_right fun _ => ⟨.inr, ?_⟩
  rintro (hitem | hsep)
  · exact fun hmem => hitem (h.sep_item x hmem)
  · exact hsep

theorem Frame.live_of_item (h : st.Frame user sep auto) (hx : x ∈ st.rows.nodes)
    (hitem : st.item x ≠ none) : st.Live sep x := h.live_iff.2 ⟨hx, .inl hitem⟩

theorem item_ne_none_of_docAt (h : st.docAt x = some d) : st.item x ≠ none := by
  intro hnone
  simp [docAt, itemAt, hnone] at h

theorem item_ne_none_of_uriAt {uri : String} (h : st.uriAt x = some uri) : st.item x ≠ none := by
  intro hnone
  simp [uriAt, itemAt, hnone] at h

/-- The item of a row with a document. -/
theorem exists_of_docAt (h : st.docAt x = some d) :
    ∃ it, st.item x = some it ∧ st.items it = .file (st.uriAt x) (some d) := by
  obtain ⟨it, hit⟩ := Option.ne_none_iff_exists'.1 (item_ne_none_of_docAt h)
  refine ⟨it, hit, ?_⟩
  cases hitem : st.items it with
  | group name => simp [docAt, itemAt, hit, hitem] at h
  | file uri doc =>
    simp only [docAt, itemAt, hit, hitem, Option.map_some] at h
    simp [uriAt, itemAt, hit, hitem, h]

theorem exists_of_uriAt {uri : String} (h : st.uriAt x = some uri) :
    ∃ it, st.item x = some it ∧ st.items it = .file (some uri) (st.docAt x) := by
  obtain ⟨it, hit⟩ := Option.ne_none_iff_exists'.1 (item_ne_none_of_uriAt h)
  refine ⟨it, hit, ?_⟩
  cases hitem : st.items it with
  | group name => simp [uriAt, itemAt, hit, hitem] at h
  | file uri' doc =>
    simp only [uriAt, itemAt, hit, hitem, Option.map_some] at h
    simp [docAt, itemAt, hit, hitem, h]

section Items

variable {live isAuto : ℕ → Prop}

theorem Items.uriAt_auto (h : st.Items live isAuto) (hx : live x) (hauto : isAuto x) :
    st.uriAt x = none := by
  obtain ⟨doc, hitem⟩ := h.auto x hx hauto
  simp [uriAt, hitem]

/-- A user row that holds a document has a URI. -/
theorem Items.uriAt_user (h : st.Items live isAuto) (hx : live x) (hauto : ¬ isAuto x)
    (hdoc : st.docAt x = some d) : st.uriAt x ≠ none := by
  obtain ⟨item, hitem, huser⟩ := h.user x hx hauto
  cases item with
  | group name => simp [docAt, hitem] at hdoc
  | file uri doc =>
    simp only [uriAt, hitem]
    exact Option.isSome_iff_ne_none.1 huser

theorem Items.eq_of_docAt (h : st.Items live isAuto) (hx : live x) (hy : live y)
    (hdx : st.docAt x = some d) (hdy : st.docAt y = some d) : x = y :=
  Option.some.inj ((h.held x d hx hdx).2.symm.trans (h.held y d hy hdy).2)

end Items

/-- The row of a document is one that holds it. -/
theorem Good.docGetListIter_eq_some (h : st.Good user sep auto) :
    st.docGetListIter d = some x ↔ st.Live sep x ∧ st.docAt x = some d := by
  rw [docGetListIter, Option.filter_eq_some_iff]
  constructor
  · rintro ⟨hrow, hmem⟩
    obtain ⟨-, ⟨-, hitem⟩, hheld⟩ := h.items.row d x hrow
    have hlive := h.live_of_item (by simpa using hmem) (Option.isSome_iff_ne_none.1 hitem)
    exact ⟨hlive, hheld hlive⟩
  · rintro ⟨hlive, hdoc⟩
    exact ⟨(h.items.held x d hlive hdoc).2, by simpa using hlive.1⟩

theorem Good.docGetListIter_eq_none (h : st.Good user sep auto) :
    st.docGetListIter d = none ↔ ∀ x, st.Live sep x → st.docAt x ≠ some d := by
  rw [Option.eq_none_iff_forall_ne_some]
  simp only [ne_eq, h.docGetListIter_eq_some, not_and]

theorem Good.findUri_eq_some (h : st.Good user sep auto) {uri : String}
    (hfind : st.findUri uri = some x) :
    st.Live sep x ∧ st.uriAt x = some uri ∧ x ∉ auto := by
  have huri : st.uriAt x = some uri := by simpa using List.find?_some hfind
  have hlive := h.live_of_item (List.mem_of_find?_eq_some hfind) (item_ne_none_of_uriAt huri)
  refine ⟨hlive, huri, fun hauto => ?_⟩
  simp [h.items.uriAt_auto hlive hauto] at huri

theorem findUri_eq_none {uri : String} (hfind : st.findUri uri = none) (hx : x ∈ st.rows.nodes) :
    st.uriAt x ≠ some uri := by simpa using List.find?_eq_none.1 hfind x hx

/-! ## Automatic rows -/

/-- The automatic rows go, and their documents have no row then. -/
theorem Good.removeAutoItems (h : st.Good user sep auto) :
    st.removeAutoItems.Good user sep [] ∧
      ∀ x, st.removeAutoItems.Live sep x ↔ st.Live sep x ∧ x ∉ auto := by
  have hdrop : st.rows.tops.drop (if st.nUserItems = 0 then 0 else st.nUserItems + 1) = auto := by
    have hlen : (user ++ sep).length = if st.nUserItems = 0 then 0 else st.nUserItems + 1 := by
      rw [List.length_append, h.user_length, h.sep_length]
      split_ifs with h0
      · rw [h0]
      · rfl
    rw [h.layout.tops_eq, ← hlen, List.drop_left]
  have heq : st.removeAutoItems = { st with rows := st.rows.without (· ∈ auto) } := by
    rw [FileList.removeAutoItems, hdrop]
  have hlayout := h.layout.without (fun x => decide (x ∈ auto))
  have huser : user.filter (fun x => !decide (x ∈ auto)) = user :=
    List.filter_eq_self.2 fun x hx => by simpa using h.sep_nodup.2.1 hx
  have hsep : sep.filter (fun x => !decide (x ∈ auto)) = sep :=
    List.filter_eq_self.2 fun x hx => by simpa using h.sep_nodup.2.2 hx
  have hauto : auto.filter (fun x => !decide (x ∈ auto)) = [] := by simp
  rw [huser, hsep, hauto] at hlayout
  have hlive (x : ℕ) : Live { st with rows := st.rows.without (· ∈ auto) } sep x ↔
      st.Live sep x ∧ x ∉ auto := by
    simp only [Live, Forest.mem_without h.layout.nodup]
    constructor
    · rintro ⟨⟨hmem, hnot⟩, hx⟩
      exact ⟨⟨hmem, hx⟩, fun hauto => hnot x (by simpa using hauto) (Forest.mem_under_self hmem)⟩
    · rintro ⟨⟨hmem, hx⟩, hauto⟩
      refine ⟨⟨hmem, fun y hy hxy => ?_⟩, hx⟩
      have hy : y ∈ auto := by simpa using hy
      exact hauto (h.layout.leaf y (List.mem_append_right _ hy) x hxy ▸ hy)
  rw [heq]
  refine ⟨⟨⟨hlayout, h.user_length, h.sep_length, h.sep_item⟩, ?_⟩, hlive⟩
  exact h.items.transfer id ⟨rfl, rfl, rfl, rfl⟩ (Nat.le_refl _) (fun _ _ => rfl)
    (fun x hx => ⟨((hlive x).1 hx).1, rfl⟩) (fun _ _ _ _ heq => heq)
    (fun x hx => ⟨fun hnil => absurd hnil List.not_mem_nil,
      fun hmem => absurd hmem ((hlive x).1 hx).2⟩)
    (fun _ _ _ => rfl) fun _ _ hne => absurd rfl hne

/-! ## A row for a document -/

/-- A row with an item that is new, for a document that has no row. -/
theorem Items.append {live live' isAuto isAuto' : ℕ → Prop} (h : st.Items live isAuto)
    (hfree : ∀ y, live y → st.docAt y ≠ some d) (hnew : ¬ live st.nextRow)
    (hitem : st'.item = Function.update st.item st.nextRow (some st.nextItem))
    (hitems : st'.items = Function.update st.items st.nextItem (.file none (some d)))
    (hdocRow : st'.docRow = Function.update st.docRow d (some st.nextRow))
    (hnext : st'.nextItem = st.nextItem + 1 ∧ st'.nextRow = st.nextRow + 1)
    (hdocs : st.docs ⊆ st'.docs) (hd : d ∈ st'.docs) (hnodup : st'.docs.Nodup)
    (hlive : ∀ y, live' y ↔ y = st.nextRow ∨ live y)
    (hauto : ∀ y, live' y → (isAuto' y ↔ y = st.nextRow ∨ isAuto y)) : st'.Items live' isAuto' := by
  obtain ⟨hnextItem, hnextRow⟩ := hnext
  have hne {y : ℕ} (hy : live y) : y ≠ st.nextRow := fun heq => hnew (heq ▸ hy)
  have hitemOld {y : ℕ} (hy : live y) : st'.item y = st.item y := by
    rw [hitem, Function.update_of_ne (hne hy)]
  have hself : st'.itemAt st.nextRow = some (.file none (some d)) := by
    simp [itemAt, hitem, hitems]
  have hdocSelf : st'.docAt st.nextRow = some d := by simp [docAt, hself]
  have hitemAt {y : ℕ} (hy : live y) : st'.itemAt y = st.itemAt y := by
    obtain ⟨it, hit⟩ := Option.isSome_iff_exists.1 (h.item_isSome hy)
    have hlt := h.fresh y it hy hit
    simp [itemAt, hitemOld hy, hit, hitems, Function.update_of_ne (Nat.ne_of_lt hlt)]
  have hdocAt {y : ℕ} (hy : live y) : st'.docAt y = st.docAt y := docAt_congr (hitemAt hy)
  refine ⟨fun y hy hnot => ?_, fun y hy hy' => ?_, fun y z hy hz heq => ?_, fun y it hy hit => ?_,
    fun y e hy he => ?_, fun e y hy => ?_, hnodup⟩
  · have hold := ((hlive y).1 hy).resolve_left fun heq => hnot ((hauto y hy).2 (.inl heq))
    obtain ⟨item, hitem', huser⟩ := h.user y hold fun ha => hnot ((hauto y hy).2 (.inr ha))
    exact ⟨item, (hitemAt hold).trans hitem', huser⟩
  · obtain rfl | hold := (hlive y).1 hy
    · exact ⟨d, hself⟩
    · obtain ⟨e, he⟩ := h.auto y hold (((hauto y hy).1 hy').resolve_left (hne hold))
      exact ⟨e, (hitemAt hold).trans he⟩
  · have hlt {z : ℕ} (hz : live z) : st'.item z ≠ some st.nextItem := fun heq =>
      absurd (h.fresh z _ hz (hitemOld hz ▸ heq)) (Nat.lt_irrefl _)
    have hnew' : st'.item st.nextRow = some st.nextItem := by simp [hitem]
    obtain rfl | hy := (hlive y).1 hy <;> obtain rfl | hz := (hlive z).1 hz
    · rfl
    · exact absurd (heq.symm.trans hnew') (hlt hz)
    · exact absurd (heq.trans hnew') (hlt hy)
    · exact h.inj y z hy hz (hitemOld hy ▸ hitemOld hz ▸ heq)
  · rw [hnextItem]
    obtain rfl | hy := (hlive y).1 hy
    · obtain rfl : st.nextItem = it := by simpa [hitem] using hit
      exact Nat.lt_succ_self _
    · exact Nat.lt_succ_of_lt (h.fresh y it hy (hitemOld hy ▸ hit))
  · obtain rfl | hy := (hlive y).1 hy
    · obtain rfl : d = e := Option.some.inj (hdocSelf.symm.trans he)
      exact ⟨hd, by simp [hdocRow]⟩
    · have hold : st.docAt y = some e := (hdocAt hy).symm.trans he
      obtain ⟨hmem, hrow⟩ := h.held y e hy hold
      refine ⟨hdocs hmem, ?_⟩
      have hed : e ≠ d := by
        rintro rfl
        exact hfree y hy hold
      rw [hdocRow, Function.update_of_ne hed, hrow]
  · by_cases he : e = d
    · subst he
      obtain rfl : st.nextRow = y := by simpa [hdocRow] using hy
      refine ⟨hd, ⟨by omega, by simp [hitem]⟩, fun _ => hdocSelf⟩
    · rw [hdocRow, Function.update_of_ne he] at hy
      obtain ⟨hmem, ⟨hlt, hsome⟩, hheld⟩ := h.row e y hy
      refine ⟨hdocs hmem, ⟨by omega, ?_⟩, fun hy' => ?_⟩
      · rwa [hitem, Function.update_of_ne (Nat.ne_of_lt hlt)]
      · have hold := ((hlive y).1 hy').resolve_left (Nat.ne_of_lt hlt)
        rw [hdocAt hold]
        exact hheld hold

/-- What giving documents their rows does to the list: only the rows of these documents change. -/
structure Gives (st st' : FileList) (docs : List Doc) (sep auto auto' : List ℕ) : Prop where
  old : ∀ y, st.Live sep y → st'.Live sep y ∧ st'.item y = st.item y ∧
    st'.uriAt y = st.uriAt y ∧ (y ∈ auto' ↔ y ∈ auto)
  new : ∀ y, st'.Live sep y → ¬ st.Live sep y → y ∈ auto' ∧ ∃ d ∈ docs, st'.docAt y = some d
  others : ∀ y e, st.Live sep y → e ∉ docs → (st'.docAt y = some e ↔ st.docAt y = some e)
  uri : st'.uri = st.uri

theorem Gives.refl (docs : List Doc) : Gives st st docs sep auto auto :=
  ⟨fun _ hy => ⟨hy, rfl, rfl, Iff.rfl⟩, fun _ hy hy' => absurd hy hy', fun _ _ _ _ => Iff.rfl, rfl⟩

theorem Gives.trans {st₁ st₂ : FileList} {docs docs' auto₁ auto₂ : List ℕ}
    (h : Gives st st₁ docs sep auto auto₁) (h' : Gives st₁ st₂ docs' sep auto₁ auto₂)
    (hdisjoint : ∀ d ∈ docs, d ∉ docs') : Gives st st₂ (docs ++ docs') sep auto auto₂ where
  old y hy := by
    obtain ⟨hlive, hitem, huri, hauto⟩ := h.old y hy
    obtain ⟨hlive', hitem', huri', hauto'⟩ := h'.old y hlive
    exact ⟨hlive', hitem'.trans hitem, huri'.trans huri, hauto'.trans hauto⟩
  new y hy hnot := by
    by_cases hlive : st₁.Live sep y
    · obtain ⟨hauto, d, hd, hdoc⟩ := h.new y hlive hnot
      obtain ⟨-, -, -, hauto'⟩ := h'.old y hlive
      exact ⟨hauto'.2 hauto, d, by simp [hd], (h'.others y d hlive (hdisjoint d hd)).2 hdoc⟩
    · obtain ⟨hauto, d, hd, hdoc⟩ := h'.new y hy hlive
      exact ⟨hauto, d, by simp [hd], hdoc⟩
  others y e hy he := by
    rw [List.mem_append, not_or] at he
    exact (h'.others y e (h.old y hy).1 he.2).trans (h.others y e hy he.1)
  uri := h'.uri.trans h.uri

/-- A document has a row: the one with its URI, or an automatic one if there is none. -/
def Attached (st : FileList) (sep auto : List ℕ) (d : Doc) : Prop :=
  ∃ x, st.Live sep x ∧ st.docAt x = some d ∧
    (x ∉ auto ∧ st.uriAt x = st.uri d ∨
      x ∈ auto ∧ ∀ uri, st.uri d = some uri → ∀ y, st.Live sep y → st.uriAt y ≠ some uri)

/-- A document without a row gets one. -/
theorem Good.attachDoc (h : st.Good user sep auto) (hfree : ∀ x, st.Live sep x → st.docAt x ≠ some d)
    (huri : ∀ x uri, st.Live sep x → st.uri d = some uri → st.uriAt x = some uri →
      st.docAt x = none) {docs : List Doc} (hdocs : st.docs ⊆ docs) (hd : d ∈ docs)
    (hnodup : docs.Nodup) :
    ∃ st₁ auto', st.attachDoc d = some st₁ ∧ st₁.docs = st.docs ∧
      Good { st₁ with docs := docs } user sep auto' ∧
      Gives st { st₁ with docs := docs } [d] sep auto auto' ∧
      Attached { st₁ with docs := docs } sep auto' d := by
  cases hfind : (st.uri d).bind st.findUri with
  | some x =>
    obtain ⟨uri, hduri, hfind'⟩ := Option.bind_eq_some_iff.1 hfind
    obtain ⟨hlive, hxuri, hauto⟩ := h.findUri_eq_some hfind'
    have hdoc := huri x uri hlive hduri hxuri
    obtain ⟨it, hit, hitem⟩ := exists_of_uriAt hxuri
    rw [hdoc] at hitem
    have hset : st.fileSetDoc x (some d) =
        { st with items := Function.update st.items it (.file (some uri) (some d)) } := by
      simp only [fileSetDoc, hit, hitem]
    let st₁ : FileList := { st with
      items := Function.update st.items it (.file (some uri) (some d))
      docRow := Function.update st.docRow d (some x) }
    obtain ⟨hself, hsame⟩ := itemAt_update h.items hlive hit (.file (some uri) (some d))
      (rfl : { st₁ with docs := docs }.item = st.item) rfl
    refine ⟨st₁, auto, ?_, rfl, ⟨⟨h.layout, h.user_length, h.sep_length, h.sep_item⟩, ?_⟩, ?_, ?_⟩
    · simp only [FileList.attachDoc, hfind, hdoc, hxuri, Option.isSome_some, and_self, if_true, hset]
      rfl
    · refine h.items.setFile hlive hit rfl (rfl : { st₁ with docs := docs }.item = st.item) rfl rfl rfl hdocs
        hnodup (fun y e hy hne he => ?_) (fun e he => ?_) (fun e y hy => ?_)
        fun y _ => ⟨fun hy => ⟨hy, fun heq => hauto (heq ▸ hy)⟩, And.left⟩
      · refine Function.update_of_ne ?_ _ _
        rintro rfl
        exact hfree y hy he
      · obtain rfl := Option.some.inj he
        exact ⟨hd, Function.update_self _ _ _⟩
      · by_cases he : e = d
        · subst he
          obtain rfl : x = y := by simpa [st₁] using hy
          exact ⟨hd, ⟨h.layout.fresh x hlive.1, by simp [hit]⟩, fun _ => rfl,
            fun hne => absurd rfl hne⟩
        · have hold : st.docRow e = some y := by simpa [st₁, Function.update_of_ne he] using hy
          obtain ⟨hmem, hrow, hheld⟩ := h.items.row e y hold
          refine ⟨hdocs hmem, hrow, ?_, fun _ => hheld⟩
          rintro rfl
          simp [hheld hlive] at hdoc
    · refine ⟨fun y hy => ⟨hy, rfl, ?_, Iff.rfl⟩, fun y hy hy' => absurd hy hy', fun y e hy he => ?_, rfl⟩
      · by_cases hyx : y = x
        · subst hyx
          rw [hxuri]
          simp [uriAt, hself]
        · exact uriAt_congr (hsame y hy hyx)
      · by_cases hyx : y = x
        · subst hyx
          have hne : d ≠ e := fun heq => he (by simp [heq])
          rw [hdoc]
          simp [docAt, hself, hne]
        · rw [docAt_congr (hsame y hy hyx)]
    · exact ⟨x, hlive, by simp [docAt, hself], .inl ⟨hauto, by simp [uriAt, hself, st₁, hduri]⟩⟩
  | none =>
    have hnot : st.nextRow ∉ st.rows.nodes := h.next_not_mem (Nat.le_refl _)
    have hsep : ∀ y ∈ sep, y ≠ st.nextRow := fun y hy heq =>
      hnot (heq ▸ h.layout.mem_of_tops (.inr (.inl hy)))
    let st₁ : FileList := { st with
      rows := st.rows.append (.node st.nextRow .nil .nil)
      item := Function.update st.item st.nextRow (some st.nextItem)
      items := Function.update st.items st.nextItem (.file none (some d))
      docRow := Function.update st.docRow d (some st.nextRow)
      nextRow := st.nextRow + 1
      nextItem := st.nextItem + 1 }
    have hlive (y : ℕ) : Live { st₁ with docs := docs } sep y ↔ y = st.nextRow ∨ st.Live sep y := by
      simp only [Live, st₁, Forest.nodes_append, Forest.nodes_node, Forest.nodes_nil,
        List.append_nil, List.mem_append, List.mem_singleton]
      constructor
      · rintro ⟨hmem | rfl, hy⟩
        · exact .inr ⟨hmem, hy⟩
        · exact .inl rfl
      · rintro (rfl | ⟨hmem, hy⟩)
        · exact ⟨.inr rfl, fun hmem => hsep _ hmem rfl⟩
        · exact ⟨.inl hmem, hy⟩
    have hne {y : ℕ} (hy : st.Live sep y) : y ≠ st.nextRow := fun heq => hnot (heq ▸ hy.1)
    have hitemAt {y : ℕ} (hy : st.Live sep y) :
        itemAt { st₁ with docs := docs } y = st.itemAt y := by
      obtain ⟨it, hit⟩ := Option.isSome_iff_exists.1 (h.items.item_isSome hy)
      have hlt := h.items.fresh y it hy hit
      simp [itemAt, st₁, Function.update_of_ne (hne hy), hit,
        Function.update_of_ne (Nat.ne_of_lt hlt)]
    have hself : itemAt { st₁ with docs := docs } st.nextRow = some (.file none (some d)) := by
      simp [itemAt, st₁]
    have hdocSelf : docAt { st₁ with docs := docs } st.nextRow = some d := by simp [docAt, hself]
    refine ⟨st₁, auto ++ [st.nextRow], ?_, rfl, ⟨⟨?_, h.user_length, h.sep_length, fun y hy => ?_⟩, ?_⟩,
      ⟨fun y hy => ⟨(hlive y).2 (.inr hy), ?_, uriAt_congr (hitemAt hy), ?_⟩, fun y hy hy' => ?_,
        fun y e hy _ => by rw [docAt_congr (hitemAt hy)], rfl⟩, ?_⟩
    · simp only [FileList.attachDoc, hfind]
      rfl
    · exact (h.layout.mono (Nat.le_succ _)).placeAuto ⟨hnot, Nat.lt_succ_self _⟩
    · simpa [st₁, Function.update_of_ne (hsep y hy)] using h.sep_item y hy
    · refine h.items.append hfree (fun hlive => hnot hlive.1) rfl rfl rfl ⟨rfl, rfl⟩ hdocs hd hnodup
        hlive fun y _ => ?_
      rw [List.mem_append, List.mem_singleton, or_comm]
    · simp [st₁, Function.update_of_ne (hne hy)]
    · simp [hne hy]
    · obtain rfl := ((hlive y).1 hy).resolve_right hy'
      exact ⟨by simp, d, by simp, hdocSelf⟩
    · refine ⟨st.nextRow, (hlive _).2 (.inl rfl), hdocSelf, .inr ⟨by simp, fun uri huri y hy => ?_⟩⟩
      have hnone : st.findUri uri = none := by
        have hduri : st.uri d = some uri := huri
        simpa [hduri] using hfind
      obtain rfl | hy := (hlive y).1 hy
      · simp [uriAt, hself]
      · rw [uriAt_congr (hitemAt hy)]
        exact findUri_eq_none hnone hy.1

/-- A user row gives up its document. -/
theorem Good.fileSetDoc_none (h : st.Good user sep auto) (hlive : st.Live sep x)
    (hdoc : st.docAt x = some d) (hauto : x ∉ auto) :
    ∃ st₁, fileSetDoc { st with docRow := Function.update st.docRow d none } x none = st₁ ∧
      st₁.Good user sep auto ∧ st₁.docs = st.docs ∧ st₁.uri = st.uri ∧ st₁.rows = st.rows ∧
      st₁.item = st.item ∧ st₁.docRow = Function.update st.docRow d none ∧ st₁.docAt x = none ∧
      (∀ y, st.Live sep y → st₁.uriAt y = st.uriAt y) ∧
      ∀ y, st.Live sep y → y ≠ x → st₁.docAt y = st.docAt y := by
  obtain ⟨it, hit, hitem⟩ := exists_of_docAt hdoc
  obtain ⟨uri, huri⟩ := Option.ne_none_iff_exists'.1 (h.items.uriAt_user hlive hauto hdoc)
  rw [huri] at hitem
  have hset : fileSetDoc { st with docRow := Function.update st.docRow d none } x none =
      { st with
        items := Function.update st.items it (.file (some uri) none)
        docRow := Function.update st.docRow d none } := by
    simp only [fileSetDoc, hit, hitem]
  refine ⟨_, hset, ⟨⟨h.layout, h.user_length, h.sep_length, h.sep_item⟩,
    h.items.release hlive hit hdoc rfl fun y _ =>
      ⟨fun hy => ⟨hy, fun heq => hauto (heq ▸ hy)⟩, And.left⟩⟩, rfl, rfl, rfl, rfl, rfl, ?_⟩
  let st₁ : FileList := { st with
    items := Function.update st.items it (.file (some uri) none)
    docRow := Function.update st.docRow d none }
  obtain ⟨hself, hsame⟩ := itemAt_update h.items hlive hit (.file (some uri) none)
    (rfl : st₁.item = st.item) rfl
  refine ⟨by simp [docAt, hself, st₁], fun y hy => ?_, fun y hy hne => docAt_congr (hsame y hy hne)⟩
  by_cases hyx : y = x
  · subst hyx
    rw [huri]
    simp [uriAt, hself, st₁]
  · exact uriAt_congr (hsame y hy hyx)

/-- `file_list_update_doc`, for a document that has no automatic row, where no other one has the row
with its URI. -/
theorem Good.updateDoc (h : st.Good user sep auto)
    (hauto : ∀ x, st.Live sep x → st.docAt x = some d → x ∉ auto)
    (huri : ∀ x uri, st.Live sep x → st.uri d = some uri → st.uriAt x = some uri →
      st.docAt x = none ∨ st.docAt x = some d) :
    ∃ st' auto', st.updateDoc d = some st' ∧ st'.Good user sep auto' ∧
      Gives st st' [d] sep auto auto' ∧ st'.Attached sep auto' d ∧
      ∀ e, e ∈ st'.docs ↔ e = d ∨ e ∈ st.docs := by
  by_cases hmem : d ∈ st.docs
  · cases hiter : st.docGetListIter d with
    | none =>
      have hfree := h.docGetListIter_eq_none.1 hiter
      obtain ⟨st₁, auto', hattach, hdocs, hgood, hgives, hatt⟩ := h.attachDoc hfree
        (fun x uri hx hd hxu => (huri x uri hx hd hxu).resolve_right (hfree x hx))
        (List.Subset.refl _) hmem h.items.docs_nodup
      rw [← hdocs] at hgood hgives hatt
      refine ⟨st₁, auto', ?_, hgood, hgives, hatt, fun e => ?_⟩
      · simp [FileList.updateDoc, hmem, hiter, addDoc, hattach]
      · rw [hdocs]
        exact ⟨.inr, fun he => he.elim (fun heq => heq ▸ hmem) id⟩
    | some x =>
      obtain ⟨hlive, hdoc⟩ := h.docGetListIter_eq_some.1 hiter
      have hx := hauto x hlive hdoc
      have hxauto : st.isAuto x = false := by
        rw [Bool.eq_false_iff, ne_eq, h.isAuto_iff, List.mem_append, not_or]
        exact ⟨hlive.2, hx⟩
      have hxuri := h.items.uriAt_user hlive hx hdoc
      by_cases hsame : st.uri d = st.uriAt x
      · refine ⟨st, auto, ?_, h, .refl _, ⟨x, hlive, hdoc, .inl ⟨hx, hsame.symm⟩⟩, fun e => ?_⟩
        · simp [FileList.updateDoc, hmem, hiter, hxauto, hdoc, hxuri, hsame]
        · exact ⟨.inr, fun he => he.elim (fun heq => heq ▸ hmem) id⟩
      · obtain ⟨st₁, hset, hgood₁, hdocs₁, huri₁, hrows₁, hitem₁, hrow₁, hnone, huris, hothers⟩ :=
          h.fileSetDoc_none hlive hdoc hx
        have hlive₁ {y : ℕ} : st₁.Live sep y ↔ st.Live sep y := by rw [Live, Live, hrows₁]
        have hfree (y : ℕ) (hy : st₁.Live sep y) : st₁.docAt y ≠ some d := by
          by_cases hyx : y = x
          · rw [hyx, hnone]
            exact Option.some_ne_none d |>.symm
          · rw [hothers y (hlive₁.1 hy) hyx]
            exact fun hy' => hyx (h.items.eq_of_docAt (hlive₁.1 hy) hlive hy' hdoc)
        have huri₂ (y : ℕ) (uri : String) (hy : st₁.Live sep y) (hd : st₁.uri d = some uri)
            (hyu : st₁.uriAt y = some uri) : st₁.docAt y = none := by
          have hy' := hlive₁.1 hy
          by_cases hyx : y = x
          · exact hyx ▸ hnone
          · rw [hothers y hy' hyx]
            rw [huris y hy'] at hyu
            rw [huri₁] at hd
            exact (huri y uri hy' hd hyu).resolve_right fun hheld =>
              hyx (h.items.eq_of_docAt hy' hlive hheld hdoc)
        have hmem₁ : d ∈ st₁.docs := hdocs₁ ▸ hmem
        obtain ⟨st₂, auto', hattach, hdocs, hgood, hgives, hatt⟩ := hgood₁.attachDoc hfree huri₂
          (List.Subset.refl _) hmem₁ hgood₁.items.docs_nodup
        rw [← hdocs] at hgood hgives hatt
        refine ⟨st₂, auto', ?_, hgood, ⟨fun y hy => ?_, fun y hy hy' => ?_, fun y e hy he => ?_, ?_⟩,
          hatt, fun e => ?_⟩
        · simp [FileList.updateDoc, hmem, hiter, hxauto, hdoc, hxuri, hsame, hset, addDoc, hmem₁,
            hattach]
        · obtain ⟨hlive', hitem', huri', hauto'⟩ := hgives.old y (hlive₁.2 hy)
          exact ⟨hlive', hitem'.trans (by rw [hitem₁]), huri'.trans (huris y hy), hauto'⟩
        · exact hgives.new y hy fun hold => hy' (hlive₁.1 hold)
        · rw [hgives.others y e (hlive₁.2 hy) he]
          by_cases hyx : y = x
          · have hne : d ≠ e := fun heq => he (by simp [heq])
            rw [hyx, hnone, hdoc]
            simp [hne]
          · rw [hothers y hy hyx]
        · rw [hgives.uri, huri₁]
        · rw [hdocs, hdocs₁]
          exact ⟨.inr, fun he => he.elim (fun heq => heq ▸ hmem) id⟩
  · have hrow : st.docRow d = none := by
      by_contra hne
      obtain ⟨x, hx⟩ := Option.ne_none_iff_exists'.1 hne
      exact hmem (h.items.row d x hx).1
    have hfree (x : ℕ) (hx : st.Live sep x) : st.docAt x ≠ some d := fun hdoc =>
      hmem (h.items.held x d hx hdoc).1
    obtain ⟨st₁, auto', hattach, hdocs, hgood, hgives, hatt⟩ := h.attachDoc hfree
      (fun x uri hx hd hxu => (huri x uri hx hd hxu).resolve_right (hfree x hx))
      (List.subset_cons_self _ _) List.mem_cons_self (List.nodup_cons.2 ⟨hmem, h.items.docs_nodup⟩)
    refine ⟨_, auto', ?_, hgood, hgives, hatt, fun e => List.mem_cons⟩
    simp [FileList.updateDoc, hmem, addDoc, hrow, hattach, connectDoc, hdocs]

/-- A document keeps its row while others get theirs. -/
theorem Attached.gives {docs auto' : List ℕ} (h : st.Attached sep auto d)
    (hgives : Gives st st' docs sep auto auto') (hd : d ∉ docs) (hgood : st'.Good user sep auto') :
    st'.Attached sep auto' d := by
  obtain ⟨x, hlive, hdoc, hrow⟩ := h
  obtain ⟨hlive', -, huri, hauto⟩ := hgives.old x hlive
  refine ⟨x, hlive', (hgives.others x d hlive hd).2 hdoc, ?_⟩
  rw [huri, hgives.uri, hauto]
  refine hrow.imp_right (And.imp_right fun hnone uri hduri y hy => ?_)
  by_cases hold : st.Live sep y
  · rw [(hgives.old y hold).2.2.1]
    exact hnone uri hduri y hold
  · rw [hgood.items.uriAt_auto hy (hgives.new y hy hold).1]
    exact (Option.some_ne_none uri).symm

/-- The loop of `file_list_update` over the open documents. -/
theorem Good.updateDocs (docs : List Doc) (hnodup : docs.Nodup) (h : st.Good user sep auto)
    (hauto : ∀ d ∈ docs, ∀ x, st.Live sep x → st.docAt x = some d → x ∉ auto)
    (huri : ∀ d ∈ docs, ∀ x uri, st.Live sep x → st.uri d = some uri → st.uriAt x = some uri →
      st.docAt x = none ∨ st.docAt x = some d)
    (hdistinct : ∀ d ∈ docs, ∀ e ∈ docs, d ≠ e → ∀ uri, st.uri d = some uri → st.uri e ≠ some uri) :
    ∃ st' auto', docs.foldlM FileList.updateDoc st = some st' ∧ st'.Good user sep auto' ∧
      Gives st st' docs sep auto auto' ∧ (∀ d ∈ docs, st'.Attached sep auto' d) ∧
      ∀ e, e ∈ st'.docs ↔ e ∈ docs ∨ e ∈ st.docs := by
  induction docs generalizing st auto with
  | nil => exact ⟨st, auto, rfl, h, .refl _, by simp, by simp⟩
  | cons d docs ih =>
    obtain ⟨hd, hnodup⟩ := List.nodup_cons.1 hnodup
    obtain ⟨st₁, auto₁, hupdate, hgood₁, hgives₁, hatt₁, hdocs₁⟩ :=
      h.updateDoc (hauto d (by simp)) (huri d (by simp))
    -- the rows of the others are as before, but that of `d` is taken
    have hother {e : Doc} (he : e ∈ docs) : e ∉ [d] := by
      simp only [List.mem_singleton]
      exact ne_of_mem_of_not_mem he hd
    have hauto₁ (e : Doc) (he : e ∈ docs) (x : ℕ) (hx : st₁.Live sep x) (hdoc : st₁.docAt x = some e) :
        x ∉ auto₁ := by
      by_cases hold : st.Live sep x
      · rw [(hgives₁.old x hold).2.2.2]
        exact hauto e (by simp [he]) x hold ((hgives₁.others x e hold (hother he)).1 hdoc)
      · obtain ⟨-, d', hd', hdoc'⟩ := hgives₁.new x hx hold
        rw [hdoc, Option.some.injEq] at hdoc'
        exact absurd (hdoc' ▸ hd') (hother he)
    have huri₁ (e : Doc) (he : e ∈ docs) (x : ℕ) (uri : String) (hx : st₁.Live sep x)
        (heuri : st₁.uri e = some uri) (hxuri : st₁.uriAt x = some uri) :
        st₁.docAt x = none ∨ st₁.docAt x = some e := by
      rw [hgives₁.uri] at heuri
      by_cases hold : st.Live sep x
      · have hxuri' := (hgives₁.old x hold).2.2.1.symm.trans hxuri
        cases hdoc : st₁.docAt x with
        | none => exact .inl rfl
        | some f =>
          by_cases hfd : f = d
          · -- the row of `d` has its URI, which is not that of `e`
            subst hfd
            obtain ⟨y, hy, hdocy, hrow⟩ := hatt₁
            obtain rfl := hgood₁.items.eq_of_docAt hy hx hdocy hdoc
            rw [hgives₁.uri] at hrow
            have hne := hdistinct e (by simp [he]) f (by simp) (ne_of_mem_of_not_mem he hd) uri heuri
            obtain ⟨-, hsame⟩ | ⟨hauto', -⟩ := hrow
            · exact absurd (hsame.symm.trans hxuri) hne
            · simp [hgood₁.items.uriAt_auto hy hauto'] at hxuri
          · have hdoc' := (hgives₁.others x f hold (by simpa using hfd)).1 hdoc
            obtain hnone | hsome := huri e (by simp [he]) x uri hold heuri hxuri'
            · simp [hdoc'] at hnone
            · exact .inr (hdoc'.symm.trans hsome)
      · simp [hgood₁.items.uriAt_auto hx (hgives₁.new x hx hold).1] at hxuri
    obtain ⟨st', auto', hfold, hgood, hgives, hatt, hdocs⟩ := ih hnodup hgood₁ hauto₁ huri₁ (by
      rw [hgives₁.uri]
      exact fun a ha b hb => hdistinct a (by simp [ha]) b (by simp [hb]))
    refine ⟨st', auto', ?_, hgood, hgives₁.trans hgives (by simpa using hd), fun e he => ?_,
      fun e => ?_⟩
    · simp [hupdate, hfold]
    · obtain rfl | he := List.mem_cons.1 he
      · exact hatt₁.gives hgives hd hgood
      · exact hatt e he
    · rw [hdocs, hdocs₁]
      simp only [List.mem_cons]
      tauto

/-! ## Closed documents -/

theorem fileSetDoc_docRow (st : FileList) (x : ℕ) (doc : Option Doc) (docRow : Doc → Option ℕ) :
    { st.fileSetDoc x doc with docRow := docRow } =
      fileSetDoc { st with docRow := docRow } x doc := by
  unfold fileSetDoc
  dsimp only
  split
  · rfl
  · split <;> rfl

theorem docRow_fileSetDoc (st : FileList) (x : ℕ) (doc : Option Doc) :
    (st.fileSetDoc x doc).docRow = st.docRow := by
  unfold fileSetDoc
  split
  · rfl
  · split <;> rfl

/-- A document that no row holds is forgotten. -/
theorem Items.forget {live isAuto : ℕ → Prop} (h : st.Items live isAuto)
    (hfree : ∀ y, live y → st.docAt y ≠ some d) :
    Items { st with
      docRow := Function.update st.docRow d none
      docs := st.docs.erase d } live isAuto := by
  refine ⟨h.user, h.auto, h.inj, h.fresh, fun y e hy he => ?_, fun e y hy => ?_,
    h.docs_nodup.erase d⟩
  · obtain ⟨hmem, hrow⟩ := h.held y e hy he
    have hne : e ≠ d := by
      rintro rfl
      exact hfree y hy he
    exact ⟨(List.mem_erase_of_ne hne).2 hmem, by simp [Function.update_of_ne hne, hrow]⟩
  · have hne : e ≠ d := by
      rintro rfl
      simp at hy
    obtain ⟨hmem, hrow, hheld⟩ := h.row e y (by simpa [Function.update_of_ne hne] using hy)
    exact ⟨(List.mem_erase_of_ne hne).2 hmem, hrow, hheld⟩

/-- `file_list_remove_doc`, for a document that has no automatic row. -/
theorem Good.removeDoc (h : st.Good user sep auto) (hmem : d ∈ st.docs)
    (hauto : ∀ x, st.Live sep x → st.docAt x = some d → x ∉ auto) :
    ∃ st', st.removeDoc d = some st' ∧ st'.Good user sep auto ∧ Gives st st' [d] sep auto auto ∧
      st'.docs = st.docs.erase d := by
  cases hiter : st.docGetListIter d with
  | none =>
    have hfree := h.docGetListIter_eq_none.1 hiter
    refine ⟨{ st with
      docRow := Function.update st.docRow d none
      docs := st.docs.erase d }, ?_, ⟨⟨h.layout, h.user_length, h.sep_length, h.sep_item⟩,
      h.items.forget hfree⟩, ⟨fun y hy => ⟨hy, rfl, rfl, Iff.rfl⟩, fun y hy hy' => absurd hy hy',
        fun _ _ _ _ => Iff.rfl, rfl⟩, rfl⟩
    simp [FileList.removeDoc, hmem, hiter, disconnectDoc]
  | some x =>
    obtain ⟨hlive, hdoc⟩ := h.docGetListIter_eq_some.1 hiter
    have hx := hauto x hlive hdoc
    have hxauto : st.isAuto x = false := by
      rw [Bool.eq_false_iff, ne_eq, h.isAuto_iff, List.mem_append, not_or]
      exact ⟨hlive.2, hx⟩
    have hxuri := h.items.uriAt_user hlive hx hdoc
    obtain ⟨st₁, hset, hgood₁, hdocs₁, huri₁, hrows₁, hitem₁, hrow₁, hnone, huris, hothers⟩ :=
      h.fileSetDoc_none hlive hdoc hx
    have hlive₁ {y : ℕ} : st₁.Live sep y ↔ st.Live sep y := by rw [Live, Live, hrows₁]
    have hfree (y : ℕ) (hy : st₁.Live sep y) : st₁.docAt y ≠ some d := by
      by_cases hyx : y = x
      · rw [hyx, hnone]
        exact (Option.some_ne_none d).symm
      · rw [hothers y (hlive₁.1 hy) hyx]
        exact fun hy' => hyx (h.items.eq_of_docAt (hlive₁.1 hy) hlive hy' hdoc)
    have hitems := hgood₁.items.forget hfree
    rw [hrow₁, Function.update_idem, ← hrow₁] at hitems
    refine ⟨{ st₁ with docs := st₁.docs.erase d }, ?_, ⟨⟨hgood₁.layout, hgood₁.user_length,
      hgood₁.sep_length, hgood₁.sep_item⟩, hitems⟩, ⟨fun y hy => ?_, fun y hy hy' => ?_,
        fun y e hy he => ?_, huri₁⟩, by rw [hdocs₁]⟩
    · have hnot : (st.uriAt x).isNone = false := by
        rw [← Option.not_isSome, Option.isSome_iff_ne_none.2 hxuri]
        rfl
      have hmem₁ : d ∈ st₁.docs := hdocs₁ ▸ hmem
      have hcommute : { st.fileSetDoc x none with
          docRow := Function.update (st.fileSetDoc x none).docRow d none } = st₁ := by
        rw [docRow_fileSetDoc, fileSetDoc_docRow, hset]
      simp only [FileList.removeDoc, hmem, not_true_eq_false, if_false, hiter, hdoc, ne_eq, hxauto, hnot,
        or_self, Bool.false_eq_true, Option.bind_some]
      rw [hcommute, disconnectDoc, if_pos hmem₁]
    · exact ⟨hlive₁.2 hy, by rw [hitem₁], huris y hy, Iff.rfl⟩
    · exact absurd (hlive₁.1 hy) hy'
    · have hne : d ≠ e := fun heq => he (by simp [heq])
      by_cases hyx : y = x
      · have hnone' : docAt { st₁ with docs := st₁.docs.erase d } x = none := hnone
        rw [hyx, hdoc, hnone']
        simp [hne]
      · rw [← hothers y hy hyx]
        rfl

/-- The loop of `file_list_update` over the closed documents. -/
theorem Good.removeDocs (docs : List Doc) (hnodup : docs.Nodup) (h : st.Good user sep auto)
    (hmem : docs ⊆ st.docs)
    (hauto : ∀ d ∈ docs, ∀ x, st.Live sep x → st.docAt x = some d → x ∉ auto) :
    ∃ st', docs.foldlM FileList.removeDoc st = some st' ∧ st'.Good user sep auto ∧
      Gives st st' docs sep auto auto ∧ ∀ e, e ∈ st'.docs ↔ e ∈ st.docs ∧ e ∉ docs := by
  induction docs generalizing st with
  | nil => exact ⟨st, rfl, h, .refl _, by simp⟩
  | cons d docs ih =>
    obtain ⟨hd, hnodup⟩ := List.nodup_cons.1 hnodup
    obtain ⟨st₁, hremove, hgood₁, hgives₁, hdocs₁⟩ := h.removeDoc (hmem (by simp)) (hauto d (by simp))
    have hother {e : Doc} (he : e ∈ docs) : e ≠ d := ne_of_mem_of_not_mem he hd
    have hlive₁ {x : ℕ} (hx : st₁.Live sep x) : st.Live sep x := by
      by_contra hold
      obtain ⟨-, d', hd', hdoc⟩ := hgives₁.new x hx hold
      obtain rfl : d' = d := by simpa using hd'
      have hmem' := (hgood₁.items.held x d' hx hdoc).1
      rw [hdocs₁] at hmem'
      exact (List.Nodup.not_mem_erase h.items.docs_nodup) hmem'
    obtain ⟨st', hfold, hgood, hgives, hdocs⟩ := ih hnodup hgood₁ (fun e he => by
      rw [hdocs₁]
      exact (List.mem_erase_of_ne (hother he)).2 (hmem (by simp [he]))) (fun e he x hx hdoc =>
      hauto e (by simp [he]) x (hlive₁ hx)
        ((hgives₁.others x e (hlive₁ hx) (by simpa using hother he)).1 hdoc))
    refine ⟨st', by simp [hremove, hfold], hgood, hgives₁.trans hgives (by simpa using hd),
      fun e => ?_⟩
    rw [hdocs, hdocs₁, h.items.docs_nodup.mem_erase_iff, List.mem_cons, not_or]
    tauto

/-! ## Updates -/

/-- What an update needs: the open documents have different URIs, and no row with the URI of one of
them holds another document. -/
def Opens (st : FileList) (docs : List Doc) : Prop :=
  (∀ d ∈ docs, ∀ e ∈ docs, d ≠ e → ∀ uri, st.uri d = some uri → st.uri e ≠ some uri) ∧
  ∀ d ∈ docs, ∀ x ∈ st.rows.nodes, ∀ uri, st.uri d = some uri → st.uriAt x = some uri →
    st.docAt x = none ∨ st.docAt x = some d

/-- `file_list_update` -/
theorem Good.update (h : st.Good user sep auto) {docs : List Doc} (hnodup : docs.Nodup)
    (hopens : st.Opens docs) :
    ∃ st' auto', st.update docs = some st' ∧ st'.Good user sep auto' ∧ st'.docs.Perm docs ∧
      (∀ d ∈ docs, st'.Attached sep auto' d) ∧ st'.userItems.Perm st.userItems := by
  obtain ⟨hgood₀, hlive₀⟩ := h.removeAutoItems
  obtain ⟨st₁, auto', hupdate, hgood₁, hgives₁, hatt₁, hdocs₁⟩ := hgood₀.updateDocs docs hnodup
    (fun d _ x _ _ => List.not_mem_nil) (fun d hd x uri hx => hopens.2 d hd x ((hlive₀ x).1 hx).1.1 uri)
    hopens.1
  -- an automatic row is new and holds an open document
  have hclosed (d : Doc) (hd : d ∈ st₁.docs.filter (· ∉ docs)) (x : ℕ) (hx : st₁.Live sep x)
      (hdoc : st₁.docAt x = some d) : x ∉ auto' := by
    intro hauto
    have hold : ¬ st.removeAutoItems.Live sep x := fun hold =>
      List.not_mem_nil ((hgives₁.old x hold).2.2.2.1 hauto)
    obtain ⟨-, e, he, hdoc'⟩ := hgives₁.new x hx hold
    obtain rfl : d = e := Option.some.inj (hdoc.symm.trans hdoc')
    simp [he] at hd
  obtain ⟨st', hremove, hgood, hgives, hdocs⟩ := hgood₁.removeDocs (st₁.docs.filter (· ∉ docs))
    (hgood₁.items.docs_nodup.filter _) (List.filter_subset_self _) hclosed
  have hmem (e : Doc) : e ∈ st'.docs ↔ e ∈ docs := by
    rw [hdocs, List.mem_filter, hdocs₁]
    simp
    tauto
  refine ⟨st', auto', by rw [FileList.update, hupdate, Option.bind_some, hremove], hgood,
    (List.perm_ext_iff_of_nodup hgood.items.docs_nodup hnodup).2 hmem, fun d hd => ?_, ?_⟩
  · exact (hatt₁ d hd).gives hgives (by simp [hd]) hgood
  · refine (List.perm_ext_iff_of_nodup hgood.nodup_userItems h.nodup_userItems).2 fun it => ?_
    rw [hgood.mem_userItems, h.mem_userItems]
    constructor
    · rintro ⟨x, hx, hauto, hit⟩
      have hx₁ : st₁.Live sep x := by
        by_contra hold
        exact hauto (hgives.new x hx hold).1
      have hx₀ : st.removeAutoItems.Live sep x := by
        by_contra hold
        exact hauto (hgives₁.new x hx₁ hold).1
      obtain ⟨hlive, hnot⟩ := (hlive₀ x).1 hx₀
      exact ⟨x, hlive, hnot, ((hgives₁.old x hx₀).2.1.symm.trans (hgives.old x hx₁).2.1.symm).trans hit⟩
    · rintro ⟨x, hx, hauto, hit⟩
      have hx₀ := (hlive₀ x).2 ⟨hx, hauto⟩
      obtain ⟨hx₁, hitem₁, -, hauto₁⟩ := hgives₁.old x hx₀
      obtain ⟨hx', hitem', -, -⟩ := hgives.old x hx₁
      exact ⟨x, hx', fun hmem => List.not_mem_nil (hauto₁.1 hmem),
        (hitem'.trans hitem₁).trans hit⟩

end FileList

end Medit.FileListPlugin
