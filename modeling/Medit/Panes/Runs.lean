import Medit.Panes.Model

/-!
# Runs of a big paned

The lists of the four sides keep the places of all panes that have ever been there, and the sides
show those of them that are there now.

## Main definitions

* `Good` — the invariant.

## Main results

* `good_run` — every run keeps it.
* `Keeps.before_iff` — nothing but moving them changes the order of two panes.
* `run_remembers` — what all this means for a user.
-/

namespace Medit.Panes.BigPaned

open HiddenOrder

/-! ## Parameters -/

section params

variable {panes : List (Id × PaneParams)} {id i : Id} {params : PaneParams}

theorem lookup_isSome : (panes.lookup id).isSome ↔ id ∈ panes.map Prod.fst := by
  induction panes with
  | nil => simp
  | cons e panes ih =>
    rw [List.lookup_cons]
    by_cases h : id = e.1
    · simp [h]
    · have hbeq : (id == e.1) = false := by simpa using h
      simp [hbeq, h, ih]

theorem mem_insertParams : i ∈ (insertParams panes id params).map Prod.fst ↔
    i = id ∨ i ∈ panes.map Prod.fst := by
  simp only [insertParams, List.map_append, List.mem_append, List.mem_map, List.mem_filter]
  constructor
  · rintro (⟨e, ⟨he, -⟩, rfl⟩ | ⟨e, he, rfl⟩)
    · exact .inr ⟨e, he, rfl⟩
    · exact .inl (by rw [List.mem_singleton.1 he])
  · rintro (rfl | ⟨e, he, rfl⟩)
    · exact .inr ⟨(i, params), by simp, rfl⟩
    · by_cases hne : e.1 = id
      · exact .inr ⟨_, List.mem_singleton_self _, hne.symm⟩
      · exact .inl ⟨e, ⟨he, by simpa using hne⟩, rfl⟩

theorem nodup_insertParams (h : (panes.map Prod.fst).Nodup) :
    ((insertParams panes id params).map Prod.fst).Nodup := by
  rw [insertParams, List.map_append, List.nodup_append]
  refine ⟨h.sublist (List.filter_sublist.map _), by simp, ?_⟩
  intro a ha b hb
  obtain ⟨e, he, rfl⟩ := List.mem_map.1 ha
  obtain rfl : b = id := by simpa using hb
  simpa using List.of_mem_filter he

theorem valid_insertParams (h : ∀ e ∈ panes, ValidId e.1 ∧ e.2.Valid) (hid : ValidId id)
    (hparams : params.Valid) : ∀ e ∈ insertParams panes id params, ValidId e.1 ∧ e.2.Valid := by
  intro e he
  rcases List.mem_append.1 he with he | he
  · exact h e (List.mem_of_mem_filter he)
  · obtain rfl := List.mem_singleton.1 he
    exact ⟨hid, hparams⟩

end params

/-! ## Sides -/

variable {s s' : BigPaned} {id x y : Id} {pos q : Position} {paned : PanedConfig} {ids : List Id}

theorem order_setPaned :
    (s.setPaned pos paned).order q = if q = pos then paned.order else s.order q := by
  by_cases h : q = pos
  · subst h
    simp [order, setPaned]
  · simp [order, setPaned, h]

theorem order_setPaned_of_eq (h : paned.order = s.order pos) :
    (s.setPaned pos paned).order q = s.order q := by
  rw [order_setPaned, h]
  split_ifs with hq
  · rw [hq]
  · rfl

theorem order_setOrder : (s.setOrder pos ids).order q = if q = pos then ids else s.order q :=
  order_setPaned

@[simp] theorem order_setChildren : (s.setChildren pos ids).order q = s.order q := rfl

@[simp] theorem panes_setChildren : (s.setChildren pos ids).panes = s.panes := rfl

theorem children_setChildren :
    (s.setChildren pos ids).children q = if q = pos then ids else s.children q := by
  by_cases h : q = pos
  · subst h
    simp [setChildren]
  · simp [setChildren, h]

theorem mem_positions (pos : Position) : pos ∈ positions := by
  cases pos <;> decide

theorem mem_all : id ∈ s.all ↔ ∃ pos, id ∈ s.order pos := by
  rw [all, List.mem_flatMap]
  exact ⟨fun ⟨pos, _, h⟩ => ⟨pos, h⟩, fun ⟨pos, h⟩ => ⟨pos, mem_positions pos, h⟩⟩

theorem count_all (s : BigPaned) (id : Id) : s.all.count id =
    (s.order .left).count id + ((s.order .right).count id + ((s.order .top).count id +
      (s.order .bottom).count id)) := by
  simp [all, positions]

/-- A list that gets one more id. -/
theorem perm_all_setOrder (h : ids.Perm (id :: s.order pos)) :
    (s.setOrder pos ids).all.Perm (id :: s.all) := by
  rw [List.perm_iff_count]
  intro a
  have hcount := List.perm_iff_count.1 h a
  rw [List.count_cons] at hcount ⊢
  rw [count_all, count_all]
  cases pos <;> simp only [order_setOrder, reduceCtorEq, if_true, if_false] <;> omega

/-- The lists have no id twice, in one of them or in two. -/
theorem nodup_order (h : s.all.Nodup) (pos : Position) : (s.order pos).Nodup :=
  (List.nodup_flatMap.1 h).1 pos (mem_positions pos)

theorem pos_unique (h : s.all.Nodup) (hp : id ∈ s.order pos) (hq : id ∈ s.order q) : pos = q := by
  have hcount := List.nodup_iff_count_le_one.1 h id
  have hp := List.count_pos_iff.2 hp
  have hq := List.count_pos_iff.2 hq
  rw [count_all] at hcount
  cases pos <;> cases q <;> first | rfl | omega

/-! ## The invariant -/

/-- Every id is in one of the four lists, once, if it has parameters; the panes that are there are
shown in the order of the lists. -/
structure Good (s : BigPaned) : Prop where
  config : s.config.Valid
  nodup : s.all.Nodup
  keys : ∀ id, id ∈ s.all ↔ id ∈ s.config.panes.map Prod.fst
  panes : ∀ id ∈ s.panes, id ∈ s.all
  panes_nodup : s.panes.Nodup
  children : ∀ pos, s.children pos = (s.order pos).filter s.shown

theorem good_new : Good new where
  config := ⟨fun _ => ⟨by simp [new, Config.new], by simp [new, Config.new],
    by simp [new, Config.new], by simp [new, Config.new]⟩,
    by simp [new, Config.new], by simp [new, Config.new]⟩
  nodup := by decide
  keys id := by simp [all, order, new, Config.new, positions]
  panes := by simp [new]
  panes_nodup := by simp [new]
  children pos := by simp [order, new, Config.new]

theorem valid_setPaned (h : s.config.Valid) (hpaned : paned.Valid) :
    (s.setPaned pos paned).config.Valid := by
  refine ⟨fun q => ?_, h.panes, h.nodup⟩
  by_cases hq : q = pos
  · subst hq
    simpa [setPaned] using hpaned
  · simpa [setPaned, hq] using h.paned q

theorem valid_setOrder (h : s.config.Valid) (hids : ∀ i ∈ ids, ValidId i) :
    (s.setOrder pos ids).config.Valid :=
  valid_setPaned h ⟨hids, (h.paned pos).size, (h.paned pos).sticky, (h.paned pos).active⟩

namespace Good

theorem mem_children (h : Good s) : id ∈ s.children pos ↔ id ∈ s.order pos ∧ id ∈ s.panes := by
  simp [h.children, shown]

theorem validId (h : Good s) (hid : id ∈ s.all) : ValidId id := by
  obtain ⟨pos, hpos⟩ := mem_all.1 hid
  exact (h.config.paned pos).order id hpos

/-- A change of one side that leaves its list. -/
theorem setPaned (h : Good s) (hpaned : paned.Valid) (horder : paned.order = s.order pos) :
    Good (s.setPaned pos paned) := by
  have hkeep := fun q => order_setPaned_of_eq (q := q) horder
  have hall : (s.setPaned pos paned).all = s.all := by simp [all, positions, hkeep]
  refine ⟨valid_setPaned h.config hpaned, hall ▸ h.nodup, hall ▸ h.keys, hall ▸ h.panes,
    h.panes_nodup, fun q => ?_⟩
  rw [hkeep]
  exact h.children q

end Good

/-- All but the list of one pane, which is in no list. -/
structure Unplaced (s : BigPaned) (id : Id) : Prop where
  config : s.config.Valid
  validId : ValidId id
  notMem : id ∉ s.all
  nodup : s.all.Nodup
  keys : ∀ i, i = id ∨ i ∈ s.all ↔ i ∈ s.config.panes.map Prod.fst
  mem : id ∈ s.panes
  panes : ∀ i ∈ s.panes, i = id ∨ i ∈ s.all
  panes_nodup : s.panes.Nodup
  children : ∀ pos, s.children pos = (s.order pos).filter s.shown

/-- A pane that is put at the same place of a side and, by `add_pane_id_to_list`, of its list. -/
theorem Unplaced.good (h : Unplaced s id) (pos : Position) (index : ℕ) :
    Good ((s.setChildren pos (insertAt (s.children pos) index id)).addPaneIdToList pos id
      index) := by
  set s' := (s.setChildren pos (insertAt (s.children pos) index id)).addPaneIdToList pos id index
    with hs'
  have horder : ∀ q, s'.order q =
      if q = pos then insertAt (s.order pos) (realIndex s.shown (s.order pos) index) id
      else s.order q := fun q => order_setOrder
  have hperm : s'.all.Perm (id :: s.all) := perm_all_setOrder (perm_insertAt _ _ _)
  refine ⟨valid_setOrder h.config fun i hi => ?_, ?_, fun i => ?_, fun i hi => ?_, h.panes_nodup,
    fun q => ?_⟩
  · rcases mem_insertAt.1 hi with rfl | hi
    · exact h.validId
    · exact (h.config.paned pos).order i hi
  · exact hperm.nodup_iff.2 (List.nodup_cons.2 ⟨h.notMem, h.nodup⟩)
  · rw [hperm.mem_iff, List.mem_cons]
    exact h.keys i
  · rw [hperm.mem_iff, List.mem_cons]
    exact h.panes i hi
  · have hchildren : s'.children q =
        if q = pos then insertAt (s.children pos) index id else s.children q := children_setChildren
    rw [hchildren, horder]
    split_ifs
    · rw [h.children]
      have hshown : s.shown id = true := by simpa [shown] using h.mem
      exact (filter_insertAt hshown fun _ _ => rfl).symm
    · exact h.children q

/-! ## Operations -/

theorem insertChild_eq (s : BigPaned) (pos : Position) (id : Id) (index : ℕ) :
    s.insertChild pos id index = s.setChildren pos (insertAt (s.children pos) index id) := by
  rw [insertChild]
  split_ifs with h
  · have hlen : (s.children pos).length ≤ index := by omega
    rw [← insertAt_min _ index, Nat.min_eq_right hlen]
  · rfl

theorem shown_iff : s.shown id = true ↔ id ∈ s.panes := by simp [shown]

/-- A pane that is in a list already is inserted there. -/
theorem Good.insert_known (h : Good s) (hshown : id ∉ s.panes) (hid : id ∈ s.order q)
    (pos : Position) (index : ℤ) :
    Good (s.insertPane id pos index) ∧ (s.insertPane id pos index).config = s.config ∧
      (s.insertPane id pos index).panes = id :: s.panes := by
  have hall : id ∈ s.all := mem_all.2 ⟨q, hid⟩
  obtain ⟨params, hparams⟩ := Option.isSome_iff_exists.1 (lookup_isSome.2 ((h.keys id).1 hall))
  obtain ⟨n, hn⟩ := Option.isSome_iff_exists.1 ((shownBefore_isSome s.shown).2 hid)
  have hconfig : s.getPaneConfig id = some (params, q, n) := by
    have hnone : ∀ p, p ≠ q → shownBefore s.shown id (s.order p) = none := by
      intro p hp
      rw [← Option.not_isSome_iff_eq_none, shownBefore_isSome]
      exact fun hmem => hp (pos_unique h.nodup hmem hid)
    rw [getPaneConfig, hparams]
    cases q <;> simp [positions, hn, hnone]
  have hnot : s.shown id = false := by simpa [shown] using hshown
  set s' := ({ s.setChildren q (insertAt (s.children q) n id) with panes := id :: s.panes } :
    BigPaned) with hs'
  have heq : s.insertPane id pos index = s' := by
    have hneg : ¬ (n : ℤ) < 0 := by omega
    simp only [insertPane, hnot, hconfig, Bool.false_eq_true, if_false, hneg, Option.isNone_some,
      insertChild_eq]
    rfl
  rw [heq]
  refine ⟨⟨h.config, h.nodup, h.keys, ?_, ?_, fun p => ?_⟩, rfl, rfl⟩
  · intro i hi
    rcases List.mem_cons.1 hi with rfl | hi
    · exact hall
    · exact h.panes i hi
  · exact List.nodup_cons.2 ⟨hshown, h.panes_nodup⟩
  · have hchildren : s'.children p =
        if p = q then insertAt (s.children q) n id else s.children p := children_setChildren
    have hothers : ∀ i ≠ id, s'.shown i = s.shown i := by
      intro i hi
      simp [shown, hs', hi]
    rw [hchildren]
    split_ifs with hp
    · subst hp
      rw [h.children]
      refine (filter_show (nodup_order h.nodup p) hn hnot ?_ fun i _ hi => hothers i hi).symm
      simp [shown, hs']
    · rw [h.children]
      refine List.filter_congr fun i hi => (hothers i ?_).symm
      rintro rfl
      exact hp (pos_unique h.nodup hi hid)

/-- A pane that has never been there is put where it is asked for. -/
theorem Good.insert_new (h : Good s) (hid : ValidId id) (hnew : id ∉ s.all) (pos : Position)
    (index : ℤ) :
    Good (s.insertPane id pos index) ∧ (s.insertPane id pos index).panes = id :: s.panes ∧
      ∃ n, ∀ q, (s.insertPane id pos index).order q =
        if q = pos then insertAt (s.order pos) n id else s.order q := by
  have hshown : id ∉ s.panes := fun hmem => hnew (h.panes id hmem)
  have hnot : s.shown id = false := by simpa [shown] using hshown
  have hlookup : s.config.panes.lookup id = none := by
    rw [← Option.not_isSome_iff_eq_none, lookup_isSome, ← h.keys]
    exact hnew
  have hconfig : s.getPaneConfig id = none := by rw [getPaneConfig, hlookup]
  obtain ⟨k, hk⟩ : ∃ k : ℕ, (if index < 0 then ((s.children pos).length : ℤ) else index) = k := by
    split_ifs with hneg
    · exact ⟨_, rfl⟩
    · exact ⟨index.toNat, (Int.toNat_of_nonneg (by omega)).symm⟩
  set s₁ : BigPaned := { s with
    panes := id :: s.panes
    config.panes := insertParams s.config.panes id .new } with hs₁
  have heq : s.insertPane id pos index =
      (s₁.setChildren pos (insertAt (s₁.children pos) k id)).addPaneIdToList pos id k := by
    have hadd : (s.setChildren pos (insertAt (s.children pos) k id)).config.panes.lookup id =
        none := hlookup
    simp only [insertPane, hnot, hconfig, Bool.false_eq_true, if_false, hk, Option.isNone_none,
      if_true, insertChild_eq, addPaneConfig, hadd, Option.isSome_none, Int.toNat_natCast]
    rfl
  have horder : ∀ q, s₁.order q = s.order q := fun _ => rfl
  have hall : s₁.all = s.all := rfl
  have hunplaced : s₁.Unplaced id := by
    refine ⟨⟨h.config.paned, ?_, nodup_insertParams h.config.nodup⟩, hid, hnew, h.nodup,
      fun i => ?_, by simp [hs₁], fun i hi => ?_, List.nodup_cons.2 ⟨hshown, h.panes_nodup⟩,
      fun q => ?_⟩
    · exact valid_insertParams h.config.panes hid ⟨by decide, by decide, by decide, by decide⟩
    · rw [hall, h.keys, mem_insertParams]
    · exact (List.mem_cons.1 hi).imp_right (h.panes i)
    · rw [horder]
      refine (h.children q).trans (List.filter_congr fun i hi => ?_)
      have hne : i ≠ id := by
        rintro rfl
        exact hnew (mem_all.2 ⟨q, hi⟩)
      simp [shown, hs₁, hne]
  rw [heq]
  exact ⟨hunplaced.good pos k, rfl, _, fun q => order_setOrder⟩

theorem findPane_eq_some (h : s.findPane id = some pos) : id ∈ s.children pos := by
  simpa using List.find?_some h

/-- The list of a pane without it. -/
theorem perm_all_erase (h : id ∈ s.order pos) :
    s.all.Perm (id :: (s.setOrder pos ((s.order pos).erase id)).all) := by
  rw [List.perm_iff_count]
  intro a
  have hcount := List.perm_iff_count.1 (List.perm_cons_erase h) a
  rw [List.count_cons] at hcount ⊢
  rw [count_all, count_all]
  cases pos <;> simp only [order_setOrder, reduceCtorEq, if_true, if_false] <;> omega

/-- A side and its list without a pane. -/
def detach (s : BigPaned) (pos : Position) (id : Id) : BigPaned :=
  (s.setOrder pos ((s.order pos).erase id)).setChildren pos ((s.children pos).erase id)

theorem Good.detach (h : Good s) (hid : id ∈ s.children pos) : (s.detach pos id).Unplaced id := by
  obtain ⟨horder, hpanes⟩ := h.mem_children.1 hid
  have hperm : s.all.Perm (id :: (s.detach pos id).all) := perm_all_erase horder
  obtain ⟨hnot, hnodup⟩ := List.nodup_cons.1 (hperm.nodup_iff.1 h.nodup)
  refine ⟨valid_setOrder h.config fun i hi => ?_, h.validId (mem_all.2 ⟨pos, horder⟩), hnot, hnodup,
    fun i => ?_, hpanes, fun i hi => ?_, h.panes_nodup, fun q => ?_⟩
  · exact (h.config.paned pos).order i (List.mem_of_mem_erase hi)
  · rw [← List.mem_cons, ← hperm.mem_iff]
    exact h.keys i
  · rw [← List.mem_cons, ← hperm.mem_iff]
    exact h.panes i hi
  · have hchildren : (s.detach pos id).children q =
        if q = pos then (s.children pos).erase id else s.children q := children_setChildren
    have hlist : (s.detach pos id).order q =
        if q = pos then (s.order pos).erase id else s.order q := order_setOrder
    have hshown : (s.detach pos id).shown = s.shown := rfl
    rw [hchildren, hlist, hshown]
    split_ifs
    · rw [h.children, (nodup_order h.nodup pos).erase_eq_filter,
        ((nodup_order h.nodup pos).filter _).erase_eq_filter, List.filter_filter,
        List.filter_filter]
      simp only [Bool.and_comm]
    · exact h.children q

/-- A pane is moved on the sides and in the lists alike, if it is moved. -/
theorem reorderPane_cases (h : Good s) (id : Id) (pos : Position) (index : ℤ) :
    s.reorderPane id pos index = s ∨ ∃ q k, id ∈ s.children q ∧
      s.reorderPane id pos index =
        ((s.detach q id).setChildren pos
          (insertAt ((s.detach q id).children pos) k id)).addPaneIdToList pos id k := by
  rw [reorderPane]
  split
  · exact .inl rfl
  · next q hq =>
    have hmem := findPane_eq_some hq
    obtain ⟨horder, -⟩ := h.mem_children.1 hmem
    have hlookup : (s.config.panes.lookup id).isSome :=
      lookup_isSome.2 ((h.keys id).1 (mem_all.2 ⟨q, horder⟩))
    have hlen : 0 < (s.children q).length := List.length_pos_of_mem hmem
    obtain ⟨k, hk⟩ : ∃ k : ℕ, (if index < 0 then
        if q = pos then ((s.children q).length : ℤ) - 1 else (s.children pos).length
        else index) = k := by
      refine ⟨Int.toNat _, (Int.toNat_of_nonneg ?_).symm⟩
      split_ifs <;> omega
    simp only [hk, Int.toNat_natCast, insertChild_eq]
    split_ifs with hsame hpos
    · exact .inl rfl
    · subst hpos
      refine .inr ⟨q, k, hmem, ?_⟩
      have hguard : ((s.setChildren q (insertAt ((s.children q).erase id) k id)).config.panes.lookup
          id).isSome ∧ id ∈ (s.setChildren q (insertAt ((s.children q).erase id) k id)).order q :=
        ⟨hlookup, horder⟩
      rw [movePaneConfig, if_pos hguard]
      simp [detach, setChildren, setOrder, setPaned, order]
    · refine .inr ⟨q, k, hmem, ?_⟩
      set s' := (s.setChildren q ((s.children q).erase id)).setChildren pos
        (insertAt ((s.setChildren q ((s.children q).erase id)).children pos) k id) with hs'
      have hguard : (s'.config.panes.lookup id).isSome ∧ id ∈ s'.order q := ⟨hlookup, horder⟩
      rw [movePaneConfig, if_pos hguard]
      rfl

theorem Good.reorder (h : Good s) (id : Id) (pos : Position) (index : ℤ) :
    Good (s.reorderPane id pos index) := by
  obtain heq | ⟨q, k, hq, heq⟩ := reorderPane_cases h id pos index
  · rw [heq]
    exact h
  · rw [heq]
    exact (h.detach hq).good pos k

theorem Good.remove (h : Good s) (id : Id) :
    Good (s.removePane id) ∧ (s.removePane id).config = s.config := by
  rw [removePane]
  split
  · exact ⟨h, rfl⟩
  · next pos hpos =>
    obtain ⟨horder, -⟩ := h.mem_children.1 (findPane_eq_some hpos)
    have hmem : ∀ i, i ∈ s.panes.erase id ↔ i ≠ id ∧ i ∈ s.panes := fun i =>
      h.panes_nodup.mem_erase_iff
    refine ⟨⟨h.config, h.nodup, h.keys, fun i hi => h.panes i (List.mem_of_mem_erase hi),
      h.panes_nodup.erase id, fun q => ?_⟩, rfl⟩
    rw [children_setChildren]
    split_ifs with hq
    · subst hq
      have hchildren := h.children q
      dsimp only
      rw [hchildren, ((nodup_order h.nodup q).filter _).erase_eq_filter, List.filter_filter]
      exact List.filter_congr fun i _ => Bool.eq_iff_iff.2 (by simp [shown, hmem])
    · refine (h.children q).trans (List.filter_congr fun i hi => ?_)
      have hne : i ≠ id := by
        rintro rfl
        exact hq (pos_unique h.nodup hi horder)
      simp [shown, hmem, hne]

/-- After a restart the lists are as they were, and nothing is shown. -/
theorem Good.restart (h : Good s) {entries : List (Id × PaneParams)}
    (hentries : entries.Perm s.config.panes) :
    Good (s.restart entries) ∧ (s.restart entries).config.paned = s.config.paned ∧
      (s.restart entries).panes = [] := by
  obtain ⟨panes, hparse, hperm⟩ := Config.parse_serialize h.config hentries
  have heq : s.restart entries = { new with config := ⟨s.config.paned, panes⟩ } := by
    rw [BigPaned.restart, hparse]
  rw [heq]
  refine ⟨⟨⟨h.config.paned, fun e he => h.config.panes e (hperm.mem_iff.1 he), ?_⟩, h.nodup,
    fun i => ?_, nofun, List.nodup_nil, fun q => ?_⟩, rfl, rfl⟩
  · exact (hperm.map Prod.fst).nodup_iff.2 h.config.nodup
  · rw [(hperm.map Prod.fst).mem_iff]
    exact h.keys i
  · exact (List.filter_eq_nil_iff.2 fun i _ => by simp [shown, new]).symm

/-! ## Runs -/

/-- The pane that an operation moves. -/
def Op.moves : Op → Id → Prop
  | .reorder id _ _, i => i = id
  | _, _ => False

/-- The lists stay as they are, apart from the ids that are moved. -/
structure Keeps (s s' : BigPaned) (moved : Id → Prop) : Prop where
  mem : ∀ pos x, ¬ moved x → x ∈ s.order pos → x ∈ s'.order pos
  before : ∀ pos x y, ¬ moved x → ¬ moved y → Before (s.order pos) x y → Before (s'.order pos) x y

theorem Keeps.of_eq {moved : Id → Prop} (h : ∀ pos, s'.order pos = s.order pos) :
    Keeps s s' moved :=
  ⟨fun pos _ _ hx => (h pos).symm ▸ hx, fun pos _ _ _ _ hxy => (h pos).symm ▸ hxy⟩

theorem keeps_insertAt {moved : Id → Prop} {n : ℕ}
    (h : ∀ q, s'.order q = if q = pos then insertAt (s.order pos) n id else s.order q) :
    Keeps s s' moved := by
  refine ⟨fun q x _ hx => ?_, fun q x y _ _ hxy => ?_⟩
  · rw [h]
    split_ifs with hq
    · subst hq
      exact mem_insertAt.2 (.inr hx)
    · exact hx
  · rw [h]
    split_ifs with hq
    · subst hq
      exact before_insertAt hxy n id
    · exact hxy

theorem Good.insert (h : Good s) (hid : ValidId id) (pos : Position) (index : ℤ) :
    Good (s.insertPane id pos index) ∧ id ∈ (s.insertPane id pos index).panes ∧
      (∀ i ∈ (s.insertPane id pos index).panes, i = id ∨ i ∈ s.panes) ∧
      Keeps s (s.insertPane id pos index) fun _ => False := by
  by_cases hshown : id ∈ s.panes
  · have heq : s.insertPane id pos index = s := by simp [insertPane, shown, hshown]
    rw [heq]
    exact ⟨h, hshown, fun i hi => .inr hi, .of_eq fun _ => rfl⟩
  · by_cases hnew : id ∈ s.all
    · obtain ⟨q, hq⟩ := mem_all.1 hnew
      obtain ⟨hgood, hconfig, hpanes⟩ := h.insert_known hshown hq pos index
      refine ⟨hgood, by simp [hpanes], fun i hi => ?_, .of_eq fun q => ?_⟩
      · simpa [hpanes] using hi
      · simp [order, hconfig]
    · obtain ⟨hgood, hpanes, n, horder⟩ := h.insert_new hid hnew pos index
      exact ⟨hgood, by simp [hpanes], fun i hi => by simpa [hpanes] using hi, keeps_insertAt horder⟩

theorem keeps_reorder (h : Good s) (id : Id) (pos : Position) (index : ℤ) :
    Keeps s (s.reorderPane id pos index) fun i => i = id := by
  obtain heq | ⟨q, k, hq, heq⟩ := reorderPane_cases h id pos index
  · rw [heq]
    exact .of_eq fun _ => rfl
  · have hdetach : Keeps s (s.detach q id) fun i => i = id := by
      have horder : ∀ p, (s.detach q id).order p =
          if p = q then (s.order q).erase id else s.order p := fun p => order_setOrder
      refine ⟨fun p x hx hmem => ?_, fun p x y hx hy hxy => ?_⟩
      · rw [horder]
        split_ifs with hp
        · subst hp
          exact (List.mem_erase_of_ne hx).2 hmem
        · exact hmem
      · rw [horder]
        split_ifs with hp
        · subst hp
          exact before_erase hxy (Ne.symm hx) (Ne.symm hy)
        · exact hxy
    have hplace : Keeps (s.detach q id) (s.reorderPane id pos index) fun i => i = id := by
      rw [heq]
      exact keeps_insertAt fun p => order_setOrder
    exact ⟨fun p x hx hmem => hplace.mem p x hx (hdetach.mem p x hx hmem), fun p x y hx hy hxy =>
      hplace.before p x y hx hy (hdetach.before p x y hx hy hxy)⟩

/-- A step keeps the invariant, and the lists apart from the pane that it moves. -/
theorem good_step (h : Good s) {op : Op} (hop : op.Valid s) :
    Good (s.step op) ∧ Keeps s (s.step op) op.moves := by
  cases op with
  | insert id pos index =>
    obtain ⟨hgood, -, -, hkeeps⟩ := h.insert hop pos index
    exact ⟨hgood, hkeeps⟩
  | remove id =>
    obtain ⟨hgood, hconfig⟩ := h.remove id
    exact ⟨hgood, .of_eq fun q => by simp [order, step, hconfig]⟩
  | reorder id pos index => exact ⟨h.reorder id pos index, keeps_reorder h id pos index⟩
  | setSize pos size =>
    have hpaned := h.config.paned pos
    exact ⟨h.setPaned ⟨hpaned.order, hop, hpaned.sticky, hpaned.active⟩ rfl,
      .of_eq fun q => order_setPaned_of_eq rfl⟩
  | sticky pos sticky =>
    have hpaned := h.config.paned pos
    have hbool : -1 ≤ sticky.toInt ∧ sticky.toInt ≤ 1 := by cases sticky <;> decide
    exact ⟨h.setPaned ⟨hpaned.order, hpaned.size, hbool, hpaned.active⟩ rfl,
      .of_eq fun q => order_setPaned_of_eq rfl⟩
  | active pos id =>
    have hpaned := h.config.paned pos
    have hactive : ∀ i ∈ id, ValidId i := fun i hi =>
      h.validId (mem_all.2 ⟨pos, (h.mem_children.1 (hop i hi)).1⟩)
    exact ⟨h.setPaned ⟨hpaned.order, hpaned.size, hpaned.sticky, hactive⟩ rfl,
      .of_eq fun q => order_setPaned_of_eq rfl⟩
  | paramsChanged id params =>
    obtain ⟨hid, hparams⟩ := hop
    have hall := h.panes id hid
    refine ⟨⟨⟨h.config.paned, ?_, nodup_insertParams h.config.nodup⟩, h.nodup, fun i => ?_, h.panes,
      h.panes_nodup, h.children⟩, .of_eq fun _ => rfl⟩
    · exact valid_insertParams h.config.panes (h.validId hall) hparams
    · refine Iff.trans ?_ mem_insertParams.symm
      rw [← h.keys i]
      exact ⟨.inr, fun hi => hi.elim (fun heq => heq ▸ hall) fun hi => hi⟩
  | restart entries =>
    obtain ⟨hgood, hpaned, -⟩ := h.restart hop
    exact ⟨hgood, .of_eq fun q => by simp [order, step, hpaned]⟩

theorem good_run (h : Good s) {ops : List Op} (hops : ValidRun s ops) :
    Good (s.run ops) ∧ Keeps s (s.run ops) fun i => ∃ op ∈ ops, op.moves i := by
  induction ops generalizing s with
  | nil => exact ⟨h, .of_eq fun _ => rfl⟩
  | cons op ops ih =>
    obtain ⟨hop, hops⟩ := hops
    obtain ⟨hgood, hkeeps⟩ := good_step h hop
    obtain ⟨ih, ih'⟩ := ih hgood hops
    refine ⟨ih, fun p x hx hmem => ?_, fun p x y hx hy hxy => ?_⟩
    · refine ih'.mem p x (fun ⟨o, ho, hm⟩ => hx ⟨o, by simp [ho], hm⟩) ?_
      exact hkeeps.mem p x (fun hm => hx ⟨op, by simp, hm⟩) hmem
    · refine ih'.before p x y (fun ⟨o, ho, hm⟩ => hx ⟨o, by simp [ho], hm⟩)
        (fun ⟨o, ho, hm⟩ => hy ⟨o, by simp [ho], hm⟩) ?_
      exact hkeeps.before p x y (fun hm => hx ⟨op, by simp, hm⟩)
        (fun hm => hy ⟨op, by simp, hm⟩) hxy

/-! ## Ids that have been inserted -/

/-- The ids that operations insert. -/
def inserted (ops : List Op) : List Id :=
  ops.filterMap fun
    | .insert id _ _ => some id
    | _ => none

/-- No id is ever dropped from the lists. -/
theorem mem_all_step (h : Good s) {op : Op} (hop : op.Valid s) (hid : id ∈ s.all) :
    id ∈ (s.step op).all := by
  by_cases hmoves : op.moves id
  · cases op with
    | reorder i pos index =>
      obtain heq | ⟨q, k, hq, heq⟩ := reorderPane_cases h i pos index
      · rwa [step, heq]
      · obtain rfl : id = i := hmoves
        rw [step, heq]
        exact (perm_all_setOrder (perm_insertAt _ _ _)).mem_iff.2 (by simp)
    | _ => exact hmoves.elim
  · obtain ⟨pos, hpos⟩ := mem_all.1 hid
    exact mem_all.2 ⟨pos, (good_step h hop).2.mem pos id hmoves hpos⟩

theorem mem_all_run (h : Good s) {ops : List Op} (hops : ValidRun s ops)
    (hid : id ∈ s.all ∨ id ∈ inserted ops) : id ∈ (s.run ops).all := by
  induction ops generalizing s with
  | nil => simpa [inserted, run] using hid
  | cons op ops ih =>
    obtain ⟨hop, hops⟩ := hops
    obtain ⟨hgood, -⟩ := good_step h hop
    refine ih hgood hops ?_
    rcases hid with hid | hid
    · exact .inl (mem_all_step h hop hid)
    · cases op with
      | insert i pos index =>
        have hcons : inserted (.insert i pos index :: ops) = i :: inserted ops := rfl
        rw [hcons] at hid
        rcases List.mem_cons.1 hid with rfl | hid
        · exact .inl (hgood.panes _ (h.insert hop pos index).2.1)
        · exact .inr hid
      | _ => exact .inr hid

/-! ## Panes that come back -/

/-- Two panes that are not moved keep their order on the side. -/
theorem Keeps.before_iff {moved : Id → Prop} (h : Good s) (h' : Good s') (hkeeps : Keeps s s' moved)
    (hx : ¬ moved x) (hy : ¬ moved y) (hne : x ≠ y) (hxs : x ∈ s.children pos)
    (hys : y ∈ s.children pos) (hxs' : x ∈ s'.children pos) (hys' : y ∈ s'.children pos) :
    Before (s.children pos) x y ↔ Before (s'.children pos) x y := by
  have hshown : ∀ {t : BigPaned}, Good t → x ∈ t.children pos → y ∈ t.children pos →
      (Before (t.children pos) x y ↔ Before (t.order pos) x y) := by
    intro t ht hx hy
    rw [ht.children, before_filter, shown_iff, shown_iff]
    exact and_iff_left ⟨(ht.mem_children.1 hx).2, (ht.mem_children.1 hy).2⟩
  rw [hshown h hxs hys, hshown h' hxs' hys']
  refine ⟨hkeeps.before pos x y hx hy, fun hbefore => ?_⟩
  refine (before_total (h.mem_children.1 hxs).1 (h.mem_children.1 hys).1 hne).resolve_right ?_
  exact fun hback => before_asymm (nodup_order h'.nodup pos) hbefore
    (hkeeps.before pos y x hy hx hback)

/-- A pane that is removed and, after whatever else happens to the other ones, inserted again. -/
theorem insert_again (h : Good s) (hid : id ∈ s.children pos) {ops : List Op}
    (hops : ValidRun (s.removePane id) ops) (hmoves : ∀ op ∈ ops, ¬ op.moves id) (q : Position)
    (index : ℤ) :
    id ∈ (((s.removePane id).run ops).insertPane id q index).children pos ∧
      ∀ x ∈ s.children pos, x ≠ id → (∀ op ∈ ops, ¬ op.moves x) →
        x ∈ (((s.removePane id).run ops).insertPane id q index).children pos →
        (Before (s.children pos) x id ↔
          Before ((((s.removePane id).run ops).insertPane id q index).children pos) x id) := by
  obtain ⟨hremoved, hconfig⟩ := h.remove id
  obtain ⟨hrun, hkeeps⟩ := good_run hremoved hops
  obtain ⟨horder, hpanes⟩ := h.mem_children.1 hid
  obtain ⟨hgood, hshown, -, hinsert⟩ :=
    hrun.insert (h.validId (mem_all.2 ⟨pos, horder⟩)) q index
  have hkept : Keeps s (((s.removePane id).run ops).insertPane id q index)
      fun i => ∃ op ∈ ops, op.moves i := by
    have hremove : ∀ p, (s.removePane id).order p = s.order p := fun p => by simp [order, hconfig]
    refine ⟨fun p x hx hmem => ?_, fun p x y hx hy hxy => ?_⟩
    · exact hinsert.mem p x nofun (hkeeps.mem p x hx ((hremove p).symm ▸ hmem))
    · exact hinsert.before p x y nofun nofun (hkeeps.before p x y hx hy ((hremove p).symm ▸ hxy))
  have hnot : ¬ ∃ op ∈ ops, op.moves id := fun ⟨op, hop, hm⟩ => hmoves op hop hm
  have hback : id ∈ (((s.removePane id).run ops).insertPane id q index).children pos :=
    hgood.mem_children.2 ⟨hkept.mem pos id hnot horder, hshown⟩
  refine ⟨hback, fun x hx hne hmoves hx' => ?_⟩
  exact hkept.before_iff h hgood (fun ⟨op, hop, hm⟩ => hmoves op hop hm) hnot hne hx hid hx' hback

/-! ## A restart -/

/-- A pane with a place in the lists is inserted without a change of the lists. -/
theorem Good.insert_listed (h : Good s) (hid : id ∈ s.all) (pos : Position) (index : ℤ) :
    Good (s.insertPane id pos index) ∧ (s.insertPane id pos index).config = s.config ∧
      ∀ i, i ∈ (s.insertPane id pos index).panes ↔ i = id ∨ i ∈ s.panes := by
  by_cases hshown : id ∈ s.panes
  · have heq : s.insertPane id pos index = s := by simp [insertPane, shown, hshown]
    rw [heq]
    exact ⟨h, rfl, fun i => (or_iff_right_of_imp (by rintro rfl; exact hshown)).symm⟩
  · obtain ⟨q, hq⟩ := mem_all.1 hid
    obtain ⟨hgood, hconfig, hpanes⟩ := h.insert_known hshown hq pos index
    exact ⟨hgood, hconfig, fun i => by simp [hpanes]⟩

def insertAll (s : BigPaned) (ids : List (Id × Position × ℤ)) : BigPaned :=
  ids.foldl (fun t i => t.insertPane i.1 i.2.1 i.2.2) s

/-- Panes with places in the lists are shown there, in whatever order they are inserted. -/
theorem Good.insertAll (h : Good s) {ids : List (Id × Position × ℤ)}
    (hids : ∀ i ∈ ids, i.1 ∈ s.all) :
    Good (s.insertAll ids) ∧ (s.insertAll ids).config = s.config ∧
      ∀ i, i ∈ (s.insertAll ids).panes ↔ i ∈ ids.map Prod.fst ∨ i ∈ s.panes := by
  induction ids generalizing s with
  | nil => exact ⟨h, rfl, fun i => by simp [BigPaned.insertAll]⟩
  | cons j ids ih =>
    obtain ⟨hgood, hconfig, hpanes⟩ := h.insert_listed (hids j (by simp)) j.2.1 j.2.2
    have horder : (s.insertPane j.1 j.2.1 j.2.2).order = s.order :=
      funext fun p => by simp [order, hconfig]
    have hall : (s.insertPane j.1 j.2.1 j.2.2).all = s.all := by rw [all, all, horder]
    obtain ⟨ih, ih', ih''⟩ := ih hgood fun i hi => hall ▸ hids i (by simp [hi])
    refine ⟨ih, ih'.trans hconfig, fun i => (ih'' i).trans ?_⟩
    rw [hpanes, List.map_cons, List.mem_cons]
    tauto

theorem lookup_eq_some {panes : List (Id × PaneParams)} (h : (panes.map Prod.fst).Nodup)
    {params : PaneParams} : panes.lookup id = some params ↔ (id, params) ∈ panes := by
  induction panes with
  | nil => simp
  | cons e panes ih =>
    obtain ⟨hnot, hnodup⟩ := List.nodup_cons.1 h
    rw [List.lookup_cons, List.mem_cons]
    by_cases heq : id = e.1
    · subst heq
      have hrest : (e.1, params) ∉ panes := fun hmem => hnot (List.mem_map.2 ⟨_, hmem, rfl⟩)
      simp only [beq_self_eq_true, Option.some.injEq, hrest, or_false, Prod.ext_iff, true_and]
      exact eq_comm
    · have hbeq : (id == e.1) = false := by simpa using heq
      have hne : (id, params) ≠ e := by
        rintro rfl
        exact heq rfl
      simp only [hbeq, hne, false_or]
      exact ih hnodup

/-- The configuration is read as it was written. -/
theorem Good.parse_serialize (h : Good s) {entries : List (Id × PaneParams)}
    (hentries : entries.Perm s.config.panes) :
    ∃ c, Config.parse (s.config.serialize entries) = some c ∧ c.paned = s.config.paned ∧
      ∀ id, c.panes.lookup id = s.config.panes.lookup id := by
  obtain ⟨panes, hparse, hperm⟩ := Config.parse_serialize h.config hentries
  refine ⟨_, hparse, rfl, fun id => Option.ext fun params => ?_⟩
  have hnodup := (hperm.map Prod.fst).nodup_iff.2 h.config.nodup
  rw [lookup_eq_some h.config.nodup, lookup_eq_some hnodup, hperm.mem_iff]

/-- What a big paned remembers of the panes with some ids. -/
structure Remembers (s : BigPaned) (ids : List Id) : Prop where
  /-- Each id is in one of the four lists, once, and has parameters. -/
  once : ∀ id ∈ ids, s.all.count id = 1 ∧ (s.config.panes.lookup id).isSome
  /-- The sides show their panes in the order of the lists. -/
  sides : ∀ pos, s.children pos = (s.order pos).filter s.shown
  /-- A pane that is removed comes back on its side, whatever is done to the others before, and
  between the same ones of those that were not moved. -/
  again : ∀ id pos, id ∈ s.children pos → ∀ ops, ValidRun (s.removePane id) ops →
    (∀ op ∈ ops, ¬ op.moves id) → ∀ q index,
      let t := ((s.removePane id).run ops).insertPane id q index
      id ∈ t.children pos ∧ ∀ x ∈ s.children pos, x ≠ id → (∀ op ∈ ops, ¬ op.moves x) →
        x ∈ t.children pos → (Before (s.children pos) x id ↔ Before (t.children pos) x id)
  /-- The configuration is read as it was written, in whatever order the table gives its entries. -/
  written : ∀ entries, entries.Perm s.config.panes →
    ∃ c, Config.parse (s.config.serialize entries) = some c ∧ c.paned = s.config.paned ∧
      ∀ id, c.panes.lookup id = s.config.panes.lookup id
  /-- After a restart the same panes, inserted in any order and anywhere, are where they were. -/
  restarted : ∀ entries, entries.Perm s.config.panes → ∀ panes : List (Id × Position × ℤ),
    (∀ i, i ∈ panes.map Prod.fst ↔ i ∈ s.panes) →
      ∀ pos, ((s.restart entries).insertAll panes).children pos = s.children pos

/-- A big paned remembers all panes that have been inserted in a run. -/
theorem run_remembers (ops : List Op) (hops : ValidRun new ops) :
    Remembers (new.run ops) (inserted ops) := by
  have hgood := (good_run good_new hops).1
  generalize hs : new.run ops = s at hgood
  refine ⟨fun id hid => ?_, hgood.children, fun id pos hid others hothers hmoves q index =>
    insert_again hgood hid hothers hmoves q index, fun entries => hgood.parse_serialize,
    fun entries hentries ids hids pos => ?_⟩
  · have hall : id ∈ s.all := hs ▸ mem_all_run good_new hops (.inr hid)
    exact ⟨List.count_eq_one_of_mem hgood.nodup hall, lookup_isSome.2 ((hgood.keys id).1 hall)⟩
  · obtain ⟨hrestart, hpaned, hempty⟩ := hgood.restart hentries
    have horder : (s.restart entries).order = s.order := funext fun p => by simp [order, hpaned]
    have hall : (s.restart entries).all = s.all := by rw [all, all, horder]
    obtain ⟨hlast, hconfig, hpanes⟩ := hrestart.insertAll (show ∀ i ∈ ids, i.1 ∈ (s.restart entries).all from
      fun i hi => hall ▸ hgood.panes _ ((hids _).1 (List.mem_map_of_mem hi)))
    have horder' : ((s.restart entries).insertAll ids).order pos = s.order pos := by
      rw [← horder, order, hconfig]
      rfl
    rw [hlast.children, hgood.children, horder']
    refine List.filter_congr fun i _ => Bool.eq_iff_iff.2 ?_
    rw [shown_iff, shown_iff, hpanes, hids, hempty]
    simp

/-- Two panes, the first of which is moved to another side. -/
theorem run_remembers_two_panes :
    Remembers (new.run [.insert [97] .left 0, .insert [98] .right (-1), .reorder [97] .right 0])
      [[97], [98]] :=
  run_remembers _ ⟨⟨by decide, by decide, by decide, by decide⟩,
    ⟨by decide, by decide, by decide, by decide⟩, trivial, trivial⟩

end Medit.Panes.BigPaned
