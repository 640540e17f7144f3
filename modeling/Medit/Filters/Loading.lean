import Medit.Filters.Manager

/-!
# Loading what was saved

A manager that is new gets from the preferences what the stores of the one that wrote them have.

## Main definitions

* `Contents.shown` — the globs and descriptions of a store's user filters and of its last filter.
* `Loaded` — some of the stores have been loaded.

## Main results

* `load_doSave` — what is loaded is what was saved.
-/

namespace Medit.Filters

open Function RecentItems

/-- What a dialog shows of a filter. -/
def Filter.shown (f : Filter) : Str × Str := (f.glob, f.description)

/-- What a dialog shows of a store. -/
def Contents.shown (c : Contents) : List (Str × Str) × (Str × Str) :=
  (c.users.map Filter.shown, c.last.shown)

namespace Mgr

variable {s t : Mgr} {userId : Option Str} {f : Filter}

/-! ## Elements -/

theorem loadElement_filter {glob : Str} (h : glob ≠ []) :
    t.loadElement userId (.filter (some glob)) = some (t.newUserFilter glob userId) := by
  cases glob with
  | nil => exact absurd rfl h
  | cons c glob => rfl

theorem loadElement_last_user {glob : Str} (h : glob ≠ []) (description : Option Str) :
    t.loadElement userId (.last (some glob) (some trueStr) description) =
      some (t.newUserFilter glob userId) := by
  cases glob with
  | nil => exact absurd rfl h
  | cons c glob => rfl

/-- A built-in filter that was the last one is so again. -/
theorem loadElement_last_builtin (h : t.Good) (userId : Option Str) {glob : Str} (hglob : glob ≠ [])
    {user : Option Str} (huser : user ≠ some trueStr) (description : Str) :
    (glob = ['!'] ∧ t.loadElement userId (.last (some glob) user (some description)) = none) ∨
      ∃ f i t', t.loadElement userId (.last (some glob) user (some description)) = some t' ∧
        f.glob = glob ∧ t.Gives description glob false f ∧ t'.Good ∧
        t.Puts t' userId f ((t.contents userId).addBuiltin f i) := by
  have hload : t.loadElement userId (.last (some glob) user (some description)) =
      (((t.newBuiltinFilter description glob userId (-1)).newFilter description glob false).map
        fun ft => ft.2.setLast userId ft.1) := by
    cases glob with
    | nil => exact absurd rfl hglob
    | cons c glob => simp [loadElement, huser]
  rw [hload]
  rcases h.newBuiltinFilter description glob userId (-1) with
    ⟨hnone, hrefused, hsame⟩ | ⟨f, i, hf, hgives, hgood, hputs⟩
  · refine .inl ⟨?_, ?_⟩
    · simpa [filterNew, hglob] using hrefused
    · rw [hsame, newFilter, hnone, hrefused]
      rfl
  · refine .inr ⟨f, i, (t.newBuiltinFilter description glob userId (-1)).setLast userId f, ?_, hf,
      hgives, ?_⟩
    · rw [newFilter, hputs.filters, ← hf, update_self]
      rfl
    · generalize t.newBuiltinFilter description glob userId (-1) = t₁ at hgood hputs
      have hc : t₁.contents userId = (t.contents userId).addBuiltin f i := by
        rw [hputs.contents, update_self]
      have hmem : f ∈ (t₁.contents userId).builtins := by
        rw [hc]
        exact Contents.mem_addBuiltin.2 (.inl rfl)
      obtain ⟨hgood', hfilters, hcontents, hchanged, hfile⟩ := hgood.setLast (.inl hmem)
      have hlast : (t₁.contents userId).last = f := by rw [hc]; rfl
      refine ⟨hgood', ?_, ?_, ?_, ?_⟩
      · rw [hfilters, hputs.filters]
      · have hsame : (t₁.contents userId).choose f = t₁.contents userId := by
          rw [Contents.choose, ← hlast]
        rw [hcontents, hsame, update_eq_self, hputs.contents]
      · rw [hchanged, hlast, hputs.changed]
        simp
      · rw [hfile, hputs.file]

/-! ## Stores -/

/-- The filters that `t` knows are those of `s`, whatever their marks. -/
def Agrees (t s : Mgr) : Prop :=
  ∀ glob f', t.filters glob = some f' → ∃ f, s.filters glob = some f ∧ f'.shown = f.shown

theorem Agrees.gives (h : t.Agrees s) (hf : s.filters f.glob = some f) {user : Bool} {f' : Filter}
    (hgives : t.Gives f.description f.glob user f') : f'.shown = f.shown := by
  rcases hgives with hknown | ⟨-, rfl⟩
  · obtain ⟨g, hg, hshown⟩ := h _ _ hknown
    obtain rfl : f = g := Option.some.inj (hf.symm.trans hg)
    exact hshown
  · rfl

theorem Agrees.puts (h : t.Agrees s) (hf : s.filters f.glob = some f) {t' : Mgr} {f' : Filter}
    {c : Contents} (hshown : f'.shown = f.shown) (hputs : t.Puts t' userId f' c) :
    t'.Agrees s := by
  intro glob g hg
  rw [hputs.filters] at hg
  have hglob : f'.glob = f.glob := congrArg Prod.fst hshown
  rcases eq_or_ne glob f'.glob with rfl | hne
  · rw [update_self] at hg
    exact ⟨f, hglob ▸ hf, Option.some.inj hg ▸ hshown⟩
  · rw [update_of_ne hne] at hg
    exact h glob g hg

/-- Filters of the user that are read from the last one get into their order. -/
theorem load_users (hs : s.Good) {users : List Filter}
    (hknown : ∀ f ∈ users, s.filters f.glob = some f)
    (hdesc : ∀ f ∈ users, f.description = f.glob) (hnull : Filters.nullFilter ∉ users)
    (hnodup : users.Nodup) (hlen : users.length ≤ numUserFilters) (ht : t.Good)
    (hagree : t.Agrees s) (hnew : t.contents userId = .new) (rest : List Element) :
    ∃ (t' : Mgr) (us : List Filter) (last : Filter),
      t.loadElements userId ((users.map fun f => .filter (some f.glob)).reverse ++ rest) =
        t'.loadElements userId rest ∧
      t'.Good ∧ t'.Agrees s ∧
      t'.contents = update t.contents userId ⟨[Filters.nullFilter], us, last⟩ ∧
      us.map Filter.shown = users.map Filter.shown := by
  induction users generalizing rest with
  | nil =>
    refine ⟨t, [], Filters.nullFilter, rfl, ht, hagree, ?_, rfl⟩
    have hnew : t.contents userId = ⟨[Filters.nullFilter], [], Filters.nullFilter⟩ := hnew
    rw [← hnew, update_eq_self]
  | cons f users ih =>
    obtain ⟨hf, hknown⟩ := List.forall_mem_cons.1 hknown
    obtain ⟨hfdesc, hdesc⟩ := List.forall_mem_cons.1 hdesc
    obtain ⟨hfnull, hnull⟩ := not_or.1 (mt List.mem_cons.2 hnull)
    obtain ⟨hfusers, hnodup⟩ := List.nodup_cons.1 hnodup
    rw [List.length_cons] at hlen
    obtain ⟨t₁, us, last, hload, ht₁, hagree₁, hcontents, hus⟩ :=
      ih hknown hdesc hnull hnodup (by omega) (.filter (some f.glob) :: rest)
    have hglob := (hs.glob _ _ hf).2.1
    rcases ht₁.newUserFilter f.glob userId with
      ⟨-, hrefused, -⟩ | ⟨f', hf', hgives, hgood, hputs⟩
    · simp [filterNew, hglob.1, hglob.2] at hrefused
    have hshown : f'.shown = f.shown := hagree₁.gives hf (by rw [hfdesc]; exact hgives)
    rw [hcontents, update_self] at hputs
    have hb : f' ∉ [Filters.nullFilter] := by
      rw [List.mem_singleton]
      rintro rfl
      have hnullf : s.filters f.glob = some Filters.nullFilter := hf' ▸ hs.null
      exact hfnull (Option.some.inj (hnullf.symm.trans hf))
    have hu : f' ∉ us := by
      intro hmem
      have hmem := List.mem_map_of_mem (f := Filter.shown) hmem
      rw [hus, hshown] at hmem
      obtain ⟨g, hg, hgshown⟩ := List.mem_map.1 hmem
      have hgglob : g.glob = f.glob := congrArg Prod.fst hgshown
      have hgf := hknown g hg
      rw [hgglob] at hgf
      exact hfusers (Option.some.inj (hf.symm.trans hgf) ▸ hg)
    have huslen : us.length < numUserFilters := by
      have := congrArg List.length hus
      rw [List.length_map, List.length_map] at this
      omega
    refine ⟨_, f' :: us, f', ?_, hgood, hagree₁.puts hf hshown hputs, ?_, ?_⟩
    · rw [List.map_cons, List.reverse_cons, List.append_assoc, List.singleton_append, hload,
        loadElements, loadElement_filter hglob.1]
    · rw [hputs.contents, hcontents, update_idem, Contents.addUser, if_neg hb,
        touch_of_not_mem hu huslen]
    · rw [List.map_cons, List.map_cons, hshown, hus]

/-- What is loaded from the set of a store is what the store has. -/
theorem load_saveSet (hs : s.Good) {store : FilterStore} (hstore : s.stores userId = some store)
    (hsound : (s.contents userId).Sound) (ht : t.Good) (hagree : t.Agrees s)
    (hnew : t.contents userId = .new) :
    (t.loadSet userId store.saveSet).Good ∧ (t.loadSet userId store.saveSet).Agrees s ∧
      ((t.loadSet userId store.saveSet).contents userId).shown = (s.contents userId).shown ∧
      ∀ id ≠ userId, (t.loadSet userId store.saveSet).contents id = t.contents id := by
  have hc := hs.contents userId
  obtain ⟨hholds, hlast⟩ := hs.store _ _ hstore
  generalize s.contents userId = c at hc hholds hlast hsound
  have hsave : store.saveSet.reverse = (c.users.map fun f => .filter (some f.glob)).reverse ++
      [.last (some c.last.glob) (some (if c.last.user then trueStr else falseStr))
        (if c.last.user then none else some c.last.description)] := by
    rw [FilterStore.saveSet, hlast, hholds.listUserFilters]
    simp
  have hknown : ∀ f ∈ c.users, s.filters f.glob = some f := fun f hf => hc.known f (.inr (.inl hf))
  have hnull : Filters.nullFilter ∉ c.users := hsound.apart _ hc.null
  obtain ⟨t₁, us, last, hload, ht₁, hagree₁, hcontents, hus⟩ := load_users hs hknown hsound.users
    hnull hc.users hc.length ht hagree hnew [.last (some c.last.glob)
      (some (if c.last.user then trueStr else falseStr))
      (if c.last.user then none else some c.last.description)]
  rw [loadSet, hsave, hload]
  have hknown := hc.known c.last (.inr (.inr rfl))
  obtain ⟨hne, hne'⟩ := (hs.glob _ _ hknown).2.1
  -- whatever the last element does, it leaves the other filters of the user
  have hdone : ∀ t' f c', t'.Good → f.shown = c.last.shown → t₁.Puts t' userId f c' →
      c'.shown = (us.map Filter.shown, f.shown) →
      t'.Good ∧ t'.Agrees s ∧ (t'.contents userId).shown = c.shown ∧
        ∀ id ≠ userId, t'.contents id = t.contents id := by
    intro t' f c' hgood hshown hputs hc'
    refine ⟨hgood, hagree₁.puts hknown hshown hputs, ?_, fun id hid => ?_⟩
    · rw [hputs.contents, update_self, hc', hus, hshown, Contents.shown]
    · rw [hputs.contents, update_of_ne hid, hcontents, update_of_ne hid]
  cases huser : c.last.user with
  | true =>
    simp only [if_true]
    rw [loadElements, loadElement_last_user hne]
    obtain ⟨users, husers⟩ : ∃ users, c.users = c.last :: users := by
      have hhead := hsound.last huser
      cases hcases : c.users with
      | nil => simp [hcases] at hhead
      | cons f users => exact ⟨users, by simpa [hcases] using hhead⟩
    rw [husers, List.map_cons] at hus
    obtain ⟨f, us, rfl, hf, -⟩ := List.map_eq_cons_iff.1 hus
    have hglob : f.glob = c.last.glob := congrArg Prod.fst hf
    have hc₁ : t₁.contents userId = ⟨[Filters.nullFilter], f :: us, last⟩ := by
      rw [hcontents, update_self]
    have hgood₁ := ht₁.contents userId
    rw [hc₁] at hgood₁
    have hfknown := hgood₁.known f (.inr (.inl (List.mem_cons_self ..)))
    rcases ht₁.newUserFilter c.last.glob userId with
      ⟨hnone, -, -⟩ | ⟨f', -, hgives, hgood, hputs⟩
    · rw [← hglob, hfknown] at hnone
      simp at hnone
    · obtain rfl : f = f' := by
        rcases hgives with hknown | ⟨hnone, -⟩
        · rw [← hglob, hfknown] at hknown
          exact Option.some.inj hknown
        · rw [← hglob, hfknown] at hnone
          simp at hnone
      refine hdone _ f _ hgood hf hputs ?_
      have hb : f ∉ [Filters.nullFilter] := by
        rw [List.mem_singleton]
        rintro rfl
        rw [← hglob] at hknown
        have heq : Filters.nullFilter = c.last := Option.some.inj (hs.null.symm.trans hknown)
        exact hnull (by rw [husers, heq]; exact List.mem_cons_self ..)
      rw [hc₁, Contents.addUser, if_neg hb, touch_head hgood₁.length]
      rfl
  | false =>
    simp only [Bool.false_eq_true, if_false]
    have hfalse : some falseStr ≠ some trueStr := by decide
    rcases loadElement_last_builtin ht₁ userId hne hfalse c.last.description with
      ⟨hbad, -⟩ | ⟨f, i, t', hload, hglob, hgives, hgood, hputs⟩
    · exact absurd hbad hne'
    · rw [loadElements, hload]
      refine hdone t' f _ hgood (hagree₁.gives hknown hgives) hputs ?_
      rw [hcontents, update_self]
      rfl

theorem Good.saveNode_eq (hs : s.Good) (userId : Option Str) :
    (s.saveNode userId = none ∧ (s.contents userId).shown = Contents.new.shown) ∨
      s.contents userId ≠ .new ∧ ∃ store, s.stores userId = some store ∧
        s.saveNode userId = some (setNode userId store.saveSet) := by
  rw [saveNode]
  cases hstore : s.stores userId with
  | none =>
    rw [Mgr.contents, hstore]
    exact .inl ⟨rfl, rfl⟩
  | some store =>
    obtain ⟨hholds, hlast⟩ := hs.store _ _ hstore
    generalize s.contents userId = c at hholds hlast
    dsimp only
    split_ifs with hsave
    · refine .inr ⟨?_, store, rfl, rfl⟩
      rintro rfl
      rw [hholds.numUser, hlast, hs.null] at hsave
      simp [Contents.new] at hsave
    · obtain ⟨hnum, hnull⟩ := not_or.1 hsave
      rw [not_not, hholds.numUser, List.length_eq_zero_iff] at hnum
      rw [not_not, hlast, hs.null] at hnull
      refine .inl ⟨rfl, ?_⟩
      rw [Contents.shown, hnum, Option.some.inj hnull]
      rfl

/-- What is loaded from the sets of some stores is what these stores have. -/
theorem load_nodes (hs : s.Good) (hsound : ∀ id, (s.contents id).Sound)
    (hempty : s.contents (some []) = .new) {ids : List (Option Str)} (hids : ids.Nodup)
    (ht : t.Good) (hagree : t.Agrees s) (hnew : ∀ id ∈ ids, t.contents id = .new) :
    ((∀ id ∈ ids, (((ids.filterMap s.saveNode).foldl loadNode t).contents id).shown =
        (s.contents id).shown) ∧
      ∀ id ∉ ids, ((ids.filterMap s.saveNode).foldl loadNode t).contents id = t.contents id) := by
  induction ids generalizing t with
  | nil => exact ⟨fun _ h => absurd h List.not_mem_nil, fun _ _ => rfl⟩
  | cons id ids ih =>
    obtain ⟨hid, hids⟩ := List.nodup_cons.1 hids
    obtain ⟨hnewid, hnew⟩ := List.forall_mem_cons.1 hnew
    rcases hs.saveNode_eq id with ⟨hnone, hshown⟩ | ⟨hne, store, hstore, hsome⟩
    · rw [List.filterMap_cons_none hnone]
      obtain ⟨ih, ih'⟩ := ih hids ht hagree hnew
      refine ⟨List.forall_mem_cons.2 ⟨?_, ih⟩, fun id' hid' => ih' id' ?_⟩
      · rw [ih' id hid, hnewid, hshown]
      · exact fun hmem => hid' (List.mem_cons_of_mem _ hmem)
    · obtain ⟨ht', hagree', hshown, hothers⟩ :=
        load_saveSet hs hstore (hsound id) ht hagree hnewid
      have hload : t.loadNode (setNode id store.saveSet) = t.loadSet id store.saveSet := by
        rcases id with - | (- | ⟨c, cs⟩)
        · rfl
        · exact absurd hempty hne
        · rfl
      rw [List.filterMap_cons_some hsome, List.foldl_cons, hload]
      obtain ⟨ih, ih'⟩ := ih hids ht' hagree' fun id' hid' => by
        rw [hothers id' (by rintro rfl; exact hid hid'), hnew id' hid']
      refine ⟨List.forall_mem_cons.2 ⟨?_, ih⟩, fun id' hid' => ?_⟩
      · rw [ih' id hid, hshown]
      · obtain ⟨hne', hid'⟩ := not_or.1 (mt List.mem_cons.2 hid')
        rw [ih' id' hid', hothers id' hne']

/-- What a manager that is new loads after a save is what the stores have. -/
theorem load_doSave (o : HashOrder) (hs : s.Good) (hsound : ∀ id, (s.contents id).Sound)
    (hempty : s.contents (some []) = .new) (hchanged : s.changed) (id : Option Str) :
    ((load (s.doSave o).file).contents id).shown = (s.contents id).shown := by
  rw [doSave, hchanged]
  simp only [Bool.not_true, Bool.false_eq_true, if_false]
  have hinit : ∀ file id, (init file).contents id = .new := fun _ _ => rfl
  have hnodup : (none :: (o.order s.userIds).map some).Nodup := by
    refine List.nodup_cons.2 ⟨by simp, ?_⟩
    exact ((o.perm _).nodup_iff.2 hs.nodup).map fun _ _ => Option.some.inj
  have hagree : ∀ file, (init file).Agrees s := by
    intro file glob f hf
    rcases eq_or_ne glob allFilesGlob with rfl | hglob
    · obtain rfl : Filters.nullFilter = f := Option.some.inj hf
      exact ⟨_, hs.null, rfl⟩
    · simp [init, update_of_ne hglob] at hf
  obtain ⟨hloaded, hothers⟩ := load_nodes hs hsound hempty hnodup
    (.init ((none :: (o.order s.userIds).map some).filterMap s.saveNode)) (hagree _)
    fun _ _ => hinit _ _
  by_cases hid : id ∈ none :: (o.order s.userIds).map some
  · exact hloaded id hid
  · refine (congrArg Contents.shown (hothers id hid)).trans ?_
    obtain ⟨hnone, hid⟩ := not_or.1 (mt List.mem_cons.2 hid)
    obtain ⟨id, rfl⟩ := Option.ne_none_iff_exists'.1 hnone
    have hid : id ∉ s.userIds := fun hmem =>
      hid (List.mem_map_of_mem ((o.perm _).mem_iff.2 hmem))
    rw [hs.userIds] at hid
    have hstore : s.stores (some id) = none :=
      Option.eq_none_iff_forall_ne_some.2 fun store heq => hid ⟨store, heq⟩
    rw [hinit, contents, hstore]

end Mgr

end Medit.Filters
