import Medit.Ctags.Model

/-!
# What is on the rows of the tree

The rows after the loop are the five groups and a row for each container in the order in which they
are mentioned, each with the tags of the list that belong there.

## Main results

* `processEntries_eq` — the rows in closed form.
* `processListSimple_right_iff` — the tree is right where the tags are unambiguous.
-/

namespace Medit.Ctags

open FirstSeen

/-- The row of a group, after the tags. -/
def groupRow (entries : List MooCtagsEntry) (group : MooCtagsGroup) : TopRow where
  heading := .group group
  entry := none
  children := entries.filter fun entry => rowName entry = none ∧ groupForKind entry.kind = group

/-- The row of a container, after the tags: the first of them gives the word, and the last one that
does not hang below is on the row. -/
def containerRow (entries : List MooCtagsEntry) (name : List Char) : TopRow where
  heading := .container ((entries.find? (rowName · = some name)).elim [] typeOf) name
  entry := (entries.filter fun entry => rowName entry = some name ∧ ¬ hangs entry).getLast?
  children := entries.filter fun entry => rowName entry = some name ∧ hangs entry

/-- The variables of the loop after the tags. -/
def treeOf (entries : List MooCtagsEntry) : CtagsTree where
  store := groups.map (groupRow entries) ++ (keys rowName entries).map (containerRow entries)
  classes := fun name =>
    if name ∈ keys rowName entries then
      some (groups.length + (keys rowName entries).idxOf name)
    else none
  groupUsed := fun group => decide ((groupRow entries group).children ≠ [])

/-- What a tag does to the row of its container. -/
def TopRow.add (entry : MooCtagsEntry) (row : TopRow) : TopRow :=
  if hangs entry then { row with children := row.children ++ [entry] }
  else { row with entry := some entry }

variable {entries : List MooCtagsEntry} {entry : MooCtagsEntry}

theorem groupRow_concat_of_some {name : List Char} (h : rowName entry = some name)
    (group : MooCtagsGroup) : groupRow (entries ++ [entry]) group = groupRow entries group := by
  simp [groupRow, List.filter_append, h]

theorem groupRow_concat_of_none (h : rowName entry = none) (group : MooCtagsGroup) :
    groupRow (entries ++ [entry]) group =
      if group = groupForKind entry.kind then
        { groupRow entries group with children := (groupRow entries group).children ++ [entry] }
      else groupRow entries group := by
  by_cases hgroup : group = groupForKind entry.kind
  · subst hgroup
    simp [groupRow, List.filter_append, h]
  · simp [groupRow, List.filter_append, hgroup, Ne.symm hgroup]

theorem containerRow_concat_of_ne {name : List Char} (h : rowName entry ≠ some name) :
    containerRow (entries ++ [entry]) name = containerRow entries name := by
  simp [containerRow, List.filter_append, List.find?_append, h]

theorem containerRow_concat {name : List Char} (h : rowName entry = some name)
    (hmem : name ∈ keys rowName entries) :
    containerRow (entries ++ [entry]) name = (containerRow entries name).add entry := by
  obtain ⟨first, hfirst, hname⟩ := mem_keys.1 hmem
  have hsome : (entries.find? (rowName · = some name)).isSome := by
    rw [List.find?_isSome]
    exact ⟨first, hfirst, by simpa using hname⟩
  obtain ⟨found, hfound⟩ := Option.isSome_iff_exists.1 hsome
  by_cases hhangs : hangs entry <;>
    simp [containerRow, TopRow.add, List.filter_append, List.find?_append, h, hhangs, hfound]

theorem containerRow_concat_new {name : List Char} (h : rowName entry = some name)
    (hmem : name ∉ keys rowName entries) :
    containerRow (entries ++ [entry]) name =
      TopRow.add entry ⟨.container (typeOf entry) name, none, []⟩ := by
  have hnone : ∀ other ∈ entries, rowName other ≠ some name :=
    fun other hother hname => hmem (mem_keys.2 ⟨other, hother, hname⟩)
  have hfind : entries.find? (rowName · = some name) = none := by
    simpa [List.find?_eq_none] using hnone
  by_cases hhangs : hangs entry <;>
    simp [containerRow, TopRow.add, List.filter_append, List.find?_append, h, hhangs, hfind] <;>
    grind

theorem CtagsTree.ext {w w' : CtagsTree} (hstore : w.store = w'.store)
    (hclasses : w.classes = w'.classes) (hused : w.groupUsed = w'.groupUsed) : w = w' := by
  cases w
  cases w'
  simp_all

theorem CtagsTree.add_eq (w : CtagsTree) (iter : ℕ) (entry : MooCtagsEntry) :
    (if hangs entry then w.appendBelow iter entry else w.setEntry iter entry) =
      { w with store := w.store.modify iter (TopRow.add entry) } := by
  unfold TopRow.add
  split_ifs <;> rfl

theorem groupUsed_concat_of_some {name : List Char} (h : rowName entry = some name) :
    (treeOf (entries ++ [entry])).groupUsed = (treeOf entries).groupUsed := by
  funext group
  simp only [treeOf, groupRow_concat_of_some h]

/-- The container of a tag is there already. -/
theorem store_add {name : List Char} (h : rowName entry = some name)
    (hmem : name ∈ keys rowName entries) :
    (treeOf entries).store.modify (groups.length + (keys rowName entries).idxOf name)
        (TopRow.add entry) = (treeOf (entries ++ [entry])).store := by
  have hlength : groups.length = (groups.map (groupRow entries)).length := by simp
  have hkeys : keys rowName (entries ++ [entry]) = keys rowName entries := by
    simp [keys_concat, seen, h, hmem]
  simp only [treeOf, hkeys]
  rw [hlength, modify_append_right, map_modify_idxOf (nodup_keys entries) hmem]
  congr 1
  · apply List.map_congr_left
    intro group _
    exact (groupRow_concat_of_some h group).symm
  · apply List.map_congr_left
    intro other _
    split_ifs with hother
    · subst hother
      exact (containerRow_concat h hmem).symm
    · exact (containerRow_concat_of_ne (by rw [h]; simpa using Ne.symm hother)).symm

/-- The container of a tag gets a new row behind the others. -/
theorem store_add_new {name : List Char} (h : rowName entry = some name)
    (hmem : name ∉ keys rowName entries) :
    (treeOf entries).store ++ [TopRow.add entry ⟨.container (typeOf entry) name, none, []⟩] =
      (treeOf (entries ++ [entry])).store := by
  have hkeys : keys rowName (entries ++ [entry]) = keys rowName entries ++ [name] := by
    simp [keys_concat, seen, h, hmem]
  simp only [treeOf, hkeys, List.map_append, List.map_cons, List.map_nil,
    containerRow_concat_new h hmem, List.append_assoc]
  congr 1
  · apply List.map_congr_left
    intro group _
    exact (groupRow_concat_of_some h group).symm
  · congr 1
    apply List.map_congr_left
    intro other hother
    have hne : rowName entry ≠ some other := by
      rw [h]
      rintro ⟨⟩
      exact hmem hother
    exact (containerRow_concat_of_ne hne).symm

theorem processClassEntry_eq {name : List Char} (h : rowName entry = some name)
    (hname : entry.klass.getD entry.name = name) :
    (treeOf entries).processClassEntry entry = treeOf (entries ++ [entry]) := by
  by_cases hmem : name ∈ keys rowName entries
  · have hkeys : keys rowName (entries ++ [entry]) = keys rowName entries := by
      simp [keys_concat, seen, h, hmem]
    have hclass : (treeOf entries).classes name =
        some (groups.length + (keys rowName entries).idxOf name) := if_pos hmem
    simp only [CtagsTree.processClassEntry, CtagsTree.getIterForClass, hname, hclass,
      CtagsTree.add_eq]
    apply CtagsTree.ext
    · exact store_add h hmem
    · simp only [treeOf, hkeys]
    · exact (groupUsed_concat_of_some h).symm
  · have hkeys : keys rowName (entries ++ [entry]) = keys rowName entries ++ [name] := by
      simp [keys_concat, seen, h, hmem]
    have hclass : (treeOf entries).classes name = none := if_neg hmem
    simp only [CtagsTree.processClassEntry, CtagsTree.getIterForClass, hname, hclass,
      CtagsTree.add_eq, CtagsTree.appendTop]
    apply CtagsTree.ext
    · have hlast := modify_append_right (treeOf entries).store
        [⟨.container (typeOf entry) name, none, []⟩] 0 (TopRow.add entry)
      rw [Nat.add_zero] at hlast
      exact hlast.trans (store_add_new h hmem)
    · funext other
      rcases eq_or_ne other name with rfl | hne
      · simp [treeOf, hkeys, List.idxOf_append_of_notMem hmem]
      · have hmem' : other ∈ keys rowName entries ++ [name] ↔ other ∈ keys rowName entries := by
          simp [hne]
        simp only [Function.update_of_ne hne, treeOf, hkeys, hmem']
        split_ifs with hold
        · rw [List.idxOf_append_of_mem hold]
        · rfl
    · exact (groupUsed_concat_of_some h).symm

theorem mem_groups (group : MooCtagsGroup) : group ∈ groups := by cases group <;> decide

/-- A round of the loop leads from the rows for the tags so far to those with the next tag. -/
theorem processEntry_eq (entries : List MooCtagsEntry) (entry : MooCtagsEntry) :
    (treeOf entries).processEntry entry = treeOf (entries ++ [entry]) := by
  unfold CtagsTree.processEntry
  split_ifs with hclass
  · exact processClassEntry_eq (if_pos hclass) rfl
  · have h : rowName entry = none := if_neg hclass
    have hkeys : keys rowName (entries ++ [entry]) = keys rowName entries := by
      simp [keys_concat, seen, h]
    have hrow (name : List Char) : containerRow (entries ++ [entry]) name =
        containerRow entries name := containerRow_concat_of_ne (by simp [h])
    apply CtagsTree.ext
    · have hlt : groups.idxOf (groupForKind entry.kind) <
          (groups.map (groupRow entries)).length := by
        rw [List.length_map]
        exact List.idxOf_lt_length_of_mem (mem_groups _)
      simp only [CtagsTree.appendBelow, treeOf, hkeys]
      rw [modify_append_left hlt, map_modify_idxOf (by decide) (mem_groups _)]
      congr 1
      · apply List.map_congr_left
        intro group _
        exact (groupRow_concat_of_none h group).symm
      · apply List.map_congr_left
        intro name _
        exact (hrow name).symm
    · simp only [CtagsTree.appendBelow, treeOf, hkeys]
    · funext group
      simp only [treeOf, groupRow_concat_of_none h]
      rcases eq_or_ne group (groupForKind entry.kind) with rfl | hne
      · simp
      · simp [hne]

theorem processEntries_eq (entries : List MooCtagsEntry) :
    entries.foldl CtagsTree.processEntry .start = treeOf entries := by
  induction entries using List.reverseRecOn with
  | nil => rfl
  | append_singleton entries entry ih => rw [List.foldl_concat, ih, processEntry_eq]

/-! ## The rows -/

theorem processListSimple_eq (entries : List MooCtagsEntry) :
    processListSimple entries =
      (groups.map (groupRow entries)).filter (·.children ≠ []) ++
        (keys rowName entries).map (containerRow entries) := by
  rw [processListSimple, processEntries_eq]
  simp only [treeOf, List.filter_append, List.filter_map]
  congr 1
  · simp [Function.comp_def, containerRow]

theorem mem_processListSimple {row : TopRow} :
    row ∈ processListSimple entries ↔
      (∃ group, row = groupRow entries group ∧ row.children ≠ []) ∨
        ∃ name ∈ keys rowName entries, row = containerRow entries name := by
  rw [processListSimple_eq, List.mem_append, List.mem_filter, List.mem_map, List.mem_map]
  constructor
  · rintro (⟨⟨group, -, rfl⟩, hne⟩ | ⟨name, hname, rfl⟩)
    · exact Or.inl ⟨group, rfl, by simpa using hne⟩
    · exact Or.inr ⟨name, hname, rfl⟩
  · rintro (⟨group, rfl, hne⟩ | ⟨name, hname, rfl⟩)
    · exact Or.inl ⟨⟨group, mem_groups group, rfl⟩, by simpa using hne⟩
    · exact Or.inr ⟨name, hname, rfl⟩

theorem tags_processListSimple (entries : List MooCtagsEntry) :
    tags (processListSimple entries) =
      (groups.flatMap fun group => (groupRow entries group).children) ++
        (keys rowName entries).flatMap fun name =>
          (containerRow entries name).entry.toList ++ (containerRow entries name).children := by
  rw [processListSimple_eq, tags, List.flatMap_append, List.flatMap_map]
  congr 1
  have hrows (l : List MooCtagsGroup) :
      ((l.map (groupRow entries)).filter (·.children ≠ [])).flatMap
          (fun row => row.entry.toList ++ row.children) =
        l.flatMap fun group => (groupRow entries group).children := by
    induction l with
    | nil => rfl
    | cons group l ih =>
      rw [List.map_cons, List.filter_cons, List.flatMap_cons]
      split_ifs with hne
      · rw [List.flatMap_cons, ih]
        rfl
      · have hnil : (groupRow entries group).children = [] := by simpa using hne
        rw [ih, hnil, List.nil_append]
  exact hrows groups

theorem rowName_of_isOwn (h : IsOwn entry) : rowName entry = some entry.name := by
  simp [rowName, h.1, h.2]

theorem rowName_of_klass {name : List Char} (h : entry.klass = some name) :
    rowName entry = some name ∧ hangs entry := by
  simp [rowName, hangs, h]

/-- What is on the row of a container is its own tag. -/
theorem isOwn_of_not_hangs {name : List Char} (h : rowName entry = some name)
    (hhangs : ¬ hangs entry) : IsOwn entry ∧ entry.name = name := by
  simp only [hangs, Bool.or_eq_true, not_or, Bool.not_eq_true, Option.isSome_eq_false_iff,
    Option.isNone_iff_eq_none] at hhangs
  obtain ⟨⟨hklass, -⟩, -⟩ := hhangs
  unfold rowName at h
  split_ifs at h with hclass
  · have hkind : entry.kind ∈ containerKinds := hclass.resolve_left (by simp [hklass])
    rw [hklass] at h
    exact ⟨⟨hklass, hkind⟩, Option.some.inj h⟩

theorem not_hangs_of_isOwn (h : IsOwn entry) (hm : entry.kind ≠ ['m']) (he : entry.kind ≠ ['e']) :
    ¬ hangs entry := by
  simp [hangs, h.1, hm, he]

theorem entry_mem {name : List Char} (h : (containerRow entries name).entry = some entry) :
    entry ∈ entries ∧ rowName entry = some name ∧ ¬ hangs entry := by
  have hmem := List.mem_of_getLast? h
  simpa [List.mem_filter] using hmem

/-- With one name for each container, nothing is lost on its row. -/
theorem toList_entry (h : ((entries.filter IsOwn).map (·.name)).Nodup) (name : List Char) :
    (containerRow entries name).entry.toList =
      entries.filter fun entry => rowName entry = some name ∧ ¬ hangs entry := by
  have hown {entry : MooCtagsEntry} (hrow : rowName entry = some name ∧ ¬ hangs entry) :=
    isOwn_of_not_hangs hrow.1 hrow.2
  have hfilter : (entries.filter IsOwn).filter
      (fun entry => rowName entry = some name ∧ ¬ hangs entry) =
        entries.filter fun entry => rowName entry = some name ∧ ¬ hangs entry := by
    rw [List.filter_filter]
    apply List.filter_congr
    intro entry _
    rw [Bool.eq_iff_iff]
    simp only [Bool.and_eq_true, decide_eq_true_eq, and_iff_left_iff_imp]
    exact fun hrow => (hown hrow).1
  apply toList_getLast? (f := (·.name)) (b := name)
  · rw [← hfilter]
    exact h.sublist (List.filter_sublist.map _)
  · intro entry hentry
    exact (hown (by simpa using (List.mem_filter.1 hentry).2)).2

/-! ## The tree of unambiguous tags -/

/-- The group of a tag that has to do with no container. -/
def groupOf (entry : MooCtagsEntry) : Option MooCtagsGroup :=
  if rowName entry = none then some (groupForKind entry.kind) else none

theorem children_groups_perm (entries : List MooCtagsEntry) :
    (groups.flatMap fun group => (groupRow entries group).children).Perm
      (entries.filter (rowName · = none)) := by
  have hkeys : (groups.flatMap fun group => entries.filter (groupOf · = some group)).Perm
      (entries.filter (groupOf · |>.isSome)) :=
    flatMap_filter_perm (by decide) fun _ _ group _ => mem_groups group
  have hsome : entries.filter (groupOf · |>.isSome) = entries.filter (rowName · = none) := by
    apply List.filter_congr
    intro entry _
    unfold groupOf
    split_ifs with hrow <;> simp [hrow]
  rw [hsome] at hkeys
  simpa [groupRow, groupOf] using hkeys

theorem children_containers_perm (h : ((entries.filter IsOwn).map (·.name)).Nodup) :
    ((keys rowName entries).flatMap fun name =>
      (containerRow entries name).entry.toList ++ (containerRow entries name).children).Perm
        (entries.filter (rowName · |>.isSome)) := by
  refine List.Perm.trans ?_ (flatMap_filter_perm (nodup_keys entries)
    fun entry hentry name hname => mem_keys.2 ⟨entry, hentry, hname⟩)
  apply List.Perm.flatMap_left
  intro name _
  have hchildren : (containerRow entries name).children =
      (entries.filter (rowName · = some name)).filter fun entry => !decide (¬ hangs entry) := by
    rw [List.filter_filter]
    apply List.filter_congr
    intro entry _
    simp [Bool.and_comm]
  have hentry : (containerRow entries name).entry.toList =
      (entries.filter (rowName · = some name)).filter fun entry => ¬ hangs entry := by
    rw [toList_entry h, List.filter_filter]
    apply List.filter_congr
    intro entry _
    simp [Bool.and_comm]
  rw [hchildren, hentry]
  exact List.filter_append_perm _ _

theorem Unambiguous.once (h : Unambiguous entries) :
    (tags (processListSimple entries)).Perm entries := by
  rw [tags_processListSimple]
  refine ((children_groups_perm entries).append (children_containers_perm h.distinct)).trans ?_
  have hsome : entries.filter (rowName · |>.isSome) =
      entries.filter fun entry => !decide (rowName entry = none) := by
    apply List.filter_congr
    intro entry _
    cases rowName entry <;> simp
  rw [hsome]
  exact List.filter_append_perm _ _

theorem Unambiguous.not_hangs (h : Unambiguous entries) (hentry : entry ∈ entries)
    (hown : IsOwn entry) : ¬ hangs entry :=
  not_hangs_of_isOwn hown (h.members entry hentry hown.1).1 (h.members entry hentry hown.1).2

theorem Unambiguous.own_entry (h : Unambiguous entries) (hentry : entry ∈ entries)
    (hown : IsOwn entry) : (containerRow entries entry.name).entry = some entry := by
  have hmem : entry ∈ (containerRow entries entry.name).entry.toList := by
    rw [toList_entry h.distinct, List.mem_filter]
    exact ⟨hentry, by simp [rowName_of_isOwn hown, h.not_hangs hentry hown]⟩
  exact Option.mem_toList.1 hmem

theorem groupRow_perm {entries' : List MooCtagsEntry} (hperm : entries'.Perm entries)
    (group : MooCtagsGroup) :
    (groupRow entries' group).children.Perm (groupRow entries group).children := hperm.filter _

theorem containerRow_perm {entries' : List MooCtagsEntry} (h : Unambiguous entries)
    (hperm : entries'.Perm entries) {name : List Char} (hname : name ∈ keys rowName entries) :
    (containerRow entries' name).heading = (containerRow entries name).heading ∧
      (containerRow entries' name).entry = (containerRow entries name).entry ∧
      (containerRow entries' name).children.Perm (containerRow entries name).children := by
  refine ⟨?_, ?_, hperm.filter _⟩
  · have hfind {l : List MooCtagsEntry} (hl : l.Perm entries) :
        ∃ found ∈ entries, rowName found = some name ∧
          l.find? (rowName · = some name) = some found := by
      obtain ⟨entry, hentry, hrow⟩ := mem_keys.1 hname
      have hsome : (l.find? (rowName · = some name)).isSome := by
        rw [List.find?_isSome]
        exact ⟨entry, hl.mem_iff.2 hentry, by simpa using hrow⟩
      obtain ⟨found, hfound⟩ := Option.isSome_iff_exists.1 hsome
      exact ⟨found, hl.mem_iff.1 (List.mem_of_find?_eq_some hfound),
        by simpa using List.find?_some hfound, hfound⟩
    obtain ⟨found, hmem, hrow, hfound⟩ := hfind (List.Perm.refl entries)
    obtain ⟨found', hmem', hrow', hfound'⟩ := hfind hperm
    simp only [containerRow, hfound, hfound', Option.elim_some,
      h.types found' hmem' found hmem name hrow' hrow]
  · have hdistinct' : ((entries'.filter IsOwn).map (·.name)).Nodup :=
      ((hperm.filter _).map _).nodup_iff.2 h.distinct
    have hsame : (containerRow entries' name).entry.toList.Perm
        (containerRow entries name).entry.toList := by
      rw [toList_entry h.distinct, toList_entry hdistinct']
      exact hperm.filter _
    cases hentry : (containerRow entries name).entry <;>
      cases hentry' : (containerRow entries' name).entry <;> simp_all

theorem Unambiguous.order (h : Unambiguous entries) {entries' : List MooCtagsEntry}
    (hperm : entries'.Perm entries) :
    shape (processListSimple entries') = shape (processListSimple entries) := by
  rw [shape, shape, processListSimple_eq, processListSimple_eq, List.map_append, List.map_append,
    Multiset.coe_eq_coe]
  apply List.Perm.append
  · -- the groups are in the same order, with the same tags
    have hrows (l : List MooCtagsGroup) :
        ((l.map (groupRow entries')).filter (·.children ≠ [])).map
            (fun row => (row.heading, row.entry, (row.children : Multiset MooCtagsEntry))) =
          ((l.map (groupRow entries)).filter (·.children ≠ [])).map
            fun row => (row.heading, row.entry, (row.children : Multiset MooCtagsEntry)) := by
      induction l with
      | nil => rfl
      | cons group l ih =>
        have hchildren := groupRow_perm hperm group
        have hnil : (groupRow entries' group).children = [] ↔
            (groupRow entries group).children = [] := by
          constructor <;> intro hnil <;> rw [hnil] at hchildren
          · exact hchildren.symm.eq_nil
          · exact hchildren.eq_nil
        rw [List.map_cons, List.map_cons, List.filter_cons, List.filter_cons]
        simp only [ne_eq, hnil] at ih ⊢
        split_ifs
        · rw [List.map_cons, List.map_cons, ih, Multiset.coe_eq_coe.2 hchildren]
          rfl
        · exact ih
    rw [hrows]
  · rw [List.map_map, List.map_map]
    refine ((keys_perm hperm).map _).trans ?_
    rw [List.map_congr_left]
    intro name hname
    obtain ⟨hheading, hentry, hchildren⟩ := containerRow_perm h hperm hname
    simp only [Function.comp_apply, hheading, hentry, Multiset.coe_eq_coe.2 hchildren]

theorem Unambiguous.right (h : Unambiguous entries) : TreeRight entries where
  once := h.once
  member := by
    intro entry hentry name hklass
    obtain ⟨hrow, hhangs⟩ := rowName_of_klass hklass
    refine ⟨_, mem_processListSimple.2 (Or.inr ⟨name, mem_keys.2 ⟨entry, hentry, hrow⟩, rfl⟩),
      _, rfl, ?_⟩
    exact List.mem_filter.2 ⟨hentry, by simp [hrow, hhangs]⟩
  own := by
    intro entry hentry hklass hkind
    have hrow := rowName_of_isOwn ⟨hklass, hkind⟩
    exact ⟨_, mem_processListSimple.2 (Or.inr ⟨_, mem_keys.2 ⟨entry, hentry, hrow⟩, rfl⟩),
      _, rfl, h.own_entry hentry ⟨hklass, hkind⟩⟩
  grouped := by
    intro entry hentry hklass hkind
    have hrow : rowName entry = none := by simp [rowName, hklass, hkind]
    have hmem : entry ∈ (groupRow entries (groupForKind entry.kind)).children :=
      List.mem_filter.2 ⟨hentry, by simp [hrow]⟩
    exact ⟨_, mem_processListSimple.2 (Or.inl ⟨_, rfl, List.ne_nil_of_mem hmem⟩), rfl, hmem⟩
  nonempty := by
    intro row hrow group hheading
    obtain ⟨group', rfl, hne⟩ | ⟨name, -, rfl⟩ := mem_processListSimple.1 hrow
    · exact hne
    · cases hheading
  order := fun _ hperm => h.order hperm

/-! ## The tags of a tree that is right -/

theorem TreeRight.members (h : TreeRight entries) (hentry : entry ∈ entries)
    (hklass : entry.klass = none) : entry.kind ≠ ['m'] ∧ entry.kind ≠ ['e'] := by
  have hkind (hhangs : hangs entry) (hkind : entry.kind ∈ containerKinds) : False := by
    obtain ⟨row, hrow, type, hheading, hon⟩ := h.own entry hentry hklass hkind
    obtain ⟨group, rfl, -⟩ | ⟨name, -, rfl⟩ := mem_processListSimple.1 hrow
    · cases hheading
    · exact (entry_mem hon).2.2 hhangs
  constructor <;> intro heq
  · exact hkind (by simp [hangs, heq]) (by simp [containerKinds, heq])
  · exact hkind (by simp [hangs, heq]) (by simp [containerKinds, heq])

theorem TreeRight.distinct (h : TreeRight entries) :
    ((entries.filter IsOwn).map (·.name)).Nodup := by
  have hown : ∀ entry ∈ entries, IsOwn entry → ¬ hangs entry := by
    intro entry hentry hown
    obtain ⟨hm, he⟩ := h.members hentry hown.1
    exact not_hangs_of_isOwn hown hm he
  -- the tags of containers on the tree are those on the rows of containers
  have htags : (tags (processListSimple entries)).filter IsOwn =
      (keys rowName entries).flatMap fun name => (containerRow entries name).entry.toList := by
    have hgroups (group : MooCtagsGroup) : (groupRow entries group).children.filter IsOwn = [] := by
      rw [List.filter_eq_nil_iff]
      intro entry hentry hown
      have hrow := (List.mem_filter.1 hentry).2
      rw [rowName_of_isOwn (by simpa using hown)] at hrow
      simp at hrow
    have hnames (name : List Char) : ((containerRow entries name).entry.toList ++
        (containerRow entries name).children).filter IsOwn =
          (containerRow entries name).entry.toList := by
      rw [List.filter_append]
      have hchildren : (containerRow entries name).children.filter IsOwn = [] := by
        rw [List.filter_eq_nil_iff]
        intro entry hentry hown'
        obtain ⟨hmem, hrow⟩ := List.mem_filter.1 hentry
        simp only [decide_eq_true_eq] at hown' hrow
        exact hown entry hmem hown' hrow.2
      rw [hchildren, List.append_nil, List.filter_eq_self]
      intro entry hentry
      obtain ⟨-, hrow, hhangs⟩ := entry_mem (Option.mem_toList.1 hentry)
      simpa using (isOwn_of_not_hangs hrow hhangs).1
    rw [tags_processListSimple, List.filter_append, List.filter_flatMap, List.filter_flatMap]
    simp only [hgroups, hnames]
    rfl
  have hnodup : (((tags (processListSimple entries)).filter IsOwn).map (·.name)).Nodup := by
    rw [htags]
    refine (nodup_keys entries).sublist (flatMap_toList_sublist _ _ _ ?_)
    intro name entry hentry
    obtain ⟨-, hrow, hhangs⟩ := entry_mem hentry
    exact (isOwn_of_not_hangs hrow hhangs).2
  exact ((h.once.filter _).map _).nodup_iff.1 hnodup

/-- The first tag of a container gives the word for it. -/
theorem containerRow_cons_heading {rest : List MooCtagsEntry} {name : List Char}
    (h : rowName entry = some name) :
    (containerRow (entry :: rest) name).heading = .container (typeOf entry) name := by
  simp [containerRow, h]

theorem TreeRight.types (h : TreeRight entries) {entry' : MooCtagsEntry} (hentry : entry ∈ entries)
    (hentry' : entry' ∈ entries) {name : List Char} (hrow : rowName entry = some name)
    (hrow' : rowName entry' = some name) : typeOf entry = typeOf entry' := by
  have hsame : shape (processListSimple (entry :: entries.erase entry)) =
      shape (processListSimple (entry' :: entries.erase entry')) :=
    (h.order _ (List.perm_cons_erase hentry).symm).trans
      (h.order _ (List.perm_cons_erase hentry').symm).symm
  have hmem : containerRow (entry :: entries.erase entry) name ∈
      processListSimple (entry :: entries.erase entry) :=
    mem_processListSimple.2 (Or.inr ⟨name, mem_keys.2 ⟨entry, by simp, hrow⟩, rfl⟩)
  have hshape := Multiset.mem_coe.2 (List.mem_map_of_mem
    (f := fun row : TopRow => (row.heading, row.entry, (row.children : Multiset MooCtagsEntry)))
    hmem)
  change _ ∈ shape _ at hshape
  rw [hsame, shape, Multiset.mem_coe, List.mem_map] at hshape
  obtain ⟨row, hrowmem, heq⟩ := hshape
  have hheading : row.heading = .container (typeOf entry) name :=
    (congrArg Prod.fst heq).trans (containerRow_cons_heading hrow)
  obtain ⟨group, rfl, -⟩ | ⟨name', -, rfl⟩ := mem_processListSimple.1 hrowmem
  · cases hheading
  · have hname : name' = name := by
      have hcontainer := hheading
      simp only [containerRow, Heading.container.injEq] at hcontainer
      exact hcontainer.2
    subst hname
    rw [containerRow_cons_heading hrow'] at hheading
    simpa using hheading.symm

/-- The tree is right if and only if the tags are unambiguous. -/
theorem processListSimple_right_iff (entries : List MooCtagsEntry) :
    TreeRight entries ↔ Unambiguous entries := by
  constructor
  · intro h
    exact ⟨fun entry hentry hklass => h.members hentry hklass, h.distinct,
      fun entry hentry entry' hentry' name hrow hrow' => h.types hentry hentry' hrow hrow'⟩
  · exact Unambiguous.right

/-- Two structures of one name, as in two scopes of a file. -/
def twoStructs : List MooCtagsEntry :=
  [⟨['A'], ['s'], 1, none, none, true⟩, ⟨['A'], ['s'], 5, none, none, true⟩]

/-- Only the second structure is on the tree. -/
theorem two_structs_lose_one : ¬ TreeRight twoStructs ∧
    tags (processListSimple twoStructs) = [⟨['A'], ['s'], 5, none, none, true⟩] := by
  have htags : tags (processListSimple twoStructs) = [⟨['A'], ['s'], 5, none, none, true⟩] := by
    decide
  refine ⟨fun h => ?_, htags⟩
  have hlength := h.once.length_eq
  rw [htags] at hlength
  cases hlength

end Medit.Ctags
