import Medit.Filters.Stores

/-!
# The contents of the stores

What each function of the manager does to what the stores stand for and to the filters that are
known.

## Main definitions

* `Mgr.contents` — what a store stands for; one that is not there, what it would be made with.
* `Mgr.Good` — the filters have the globs they are known by, and the stores their contents.
* `Mgr.Puts` — one store has been changed.

## Main results

* `Good.newUserFilter`, `Good.newBuiltinFilter`, `Good.setLast` — the three of them keep this.
-/

namespace Medit.Filters

open Function RecentItems

namespace Mgr

variable {s : Mgr} {userId : Option Str} {f : Filter}

def contents (s : Mgr) (userId : Option Str) : Contents :=
  match s.stores userId with
  | some store => store.contents
  | none => .new

/-- The manager is as it is between two calls. -/
structure Good (s : Mgr) : Prop where
  null : s.nullFilter = some Filters.nullFilter
  glob : ∀ glob f, s.filters glob = some f →
    f.glob = glob ∧ (glob ≠ [] ∧ glob ≠ ['!']) ∧ (f.user → f.description = glob)
  store : ∀ userId store, s.stores userId = some store → store.Good (s.contents userId)
  contents : ∀ userId, (s.contents userId).Good s.filters
  userIds : ∀ id, id ∈ s.userIds ↔ ∃ store, s.stores (some id) = some store
  nodup : s.userIds.Nodup

/-- The filter that `mgr_new_filter` gives, unless it refuses the glob. -/
def Gives (s : Mgr) (description glob : Str) (user : Bool) (f : Filter) : Prop :=
  s.filters glob = some f ∨ s.filters glob = none ∧ f = ⟨description, glob, user⟩

/-- A store has got other contents, and a filter is known. -/
structure Puts (s s' : Mgr) (userId : Option Str) (f : Filter) (c : Contents) : Prop where
  filters : s'.filters = update s.filters f.glob (some f)
  contents : s'.contents = update s.contents userId c
  changed : s'.changed = (s.changed || (s.filters f.glob).isNone)
  file : s'.file = s.file

namespace Good

/-- A filter that is known, or made. -/
theorem newFilter (h : s.Good) (description glob : Str) (user : Bool)
    (hdesc : user → description = glob) :
    (s.filters glob = none ∧ filterNew description glob user = none ∧
        s.newFilter description glob user = none) ∨
      ∃ f s', s.newFilter description glob user = some (f, s') ∧ s'.Good ∧ f.glob = glob ∧
        s.Gives description glob user f ∧
        s'.filters = update s.filters glob (some f) ∧ s'.stores = s.stores ∧
        s'.changed = (s.changed || (s.filters glob).isNone) ∧ s'.file = s.file := by
  rw [Mgr.newFilter]
  cases hglob : s.filters glob with
  | some f =>
    refine .inr ⟨f, s, rfl, h, (h.glob _ _ hglob).1, .inl hglob, ?_, rfl, by simp, rfl⟩
    rw [← hglob, update_eq_self]
  | none =>
    rw [filterNew]
    split_ifs with hbad
    · exact .inl ⟨rfl, rfl, rfl⟩
    · have hne := not_or.1 hbad
      refine .inr ⟨_, _, rfl, ⟨?_, fun g f hf => ?_, h.store, fun id => ?_, h.userIds, h.nodup⟩,
        rfl, .inr ⟨hglob, rfl⟩, rfl, rfl, by simp, rfl⟩
      · have hall : allFilesGlob ≠ glob := by
          rintro rfl
          rw [← Mgr.nullFilter, h.null] at hglob
          simp at hglob
        simpa [Mgr.nullFilter, update_of_ne hall] using h.null
      · replace hf : update s.filters glob (some ⟨description, glob, user⟩) g = some f := hf
        rcases eq_or_ne g glob with rfl | hg
        · rw [update_self] at hf
          obtain rfl := Option.some.inj hf
          exact ⟨rfl, hne, hdesc⟩
        · rw [update_of_ne hg] at hf
          exact h.glob g f hf
      · refine (h.contents id).mono fun f hf => ?_
        rcases eq_or_ne f.glob glob with hg | hg
        · rw [hg, hglob] at hf
          simp at hf
        · exact (update_of_ne hg _ _).trans hf

theorem createStore (h : s.Good) (userId : Option Str) :
    ∃ store s', s.createStore userId = (store, s') ∧ s'.Good ∧ s'.stores userId = some store ∧
      store.Good (s.contents userId) ∧ s'.contents = s.contents ∧ s'.filters = s.filters ∧
      s'.changed = s.changed ∧ s'.file = s.file := by
  rw [Mgr.createStore]
  cases hstore : s.stores userId with
  | some store =>
    exact ⟨store, s, rfl, h, hstore, h.store _ _ hstore, rfl, rfl, rfl, rfl⟩
  | none =>
    have hnew : (FilterStore.new s.nullFilter).Good .new := by
      rw [h.null]
      exact FilterStore.Holds.new _
    have hcontents : s.contents userId = .new := by rw [Mgr.contents, hstore]
    have hsame : ∀ s' : Mgr, s'.stores = update s.stores userId (some (.new s.nullFilter)) →
        s'.contents = s.contents := by
      intro s' hs'
      funext id
      rcases eq_or_ne id userId with rfl | hid
      · rw [Mgr.contents, hs', update_self, hcontents]
        exact hnew.contents_eq
      · rw [Mgr.contents, hs', update_of_ne hid, Mgr.contents]
    generalize hs' : ({ s with
      stores := update s.stores userId (some (.new s.nullFilter))
      userIds := s.userIds ++ userId.toList } : Mgr) = s'
    have hstores : s'.stores = update s.stores userId (some (.new s.nullFilter)) := by rw [← hs']
    have hids : s'.userIds = s.userIds ++ userId.toList := by rw [← hs']
    have hfilters : s'.filters = s.filters := by rw [← hs']
    refine ⟨_, s', by rw [← hs'], ⟨?_, ?_, fun id store hid => ?_, ?_, fun id => ?_, ?_⟩, ?_, ?_,
      hsame s' hstores, hfilters, by rw [← hs'], by rw [← hs']⟩
    · rw [Mgr.nullFilter, hfilters]
      exact h.null
    · rw [hfilters]
      exact h.glob
    · rw [hsame s' hstores]
      rcases eq_or_ne id userId with rfl | hne
      · rw [hstores, update_self] at hid
        rw [← Option.some.inj hid, hcontents]
        exact hnew
      · rw [hstores, update_of_ne hne] at hid
        exact h.store id store hid
    · rw [hsame s' hstores, hfilters]
      exact h.contents
    · rw [hids, List.mem_append, hstores, h.userIds]
      rcases eq_or_ne (some id) userId with rfl | hne
      · simp
      · rw [update_of_ne hne]
        have : id ∉ userId.toList := by
          rw [Option.mem_toList]
          exact fun hmem => hne hmem.symm
        simp [this]
    · rw [hids]
      cases userId with
      | none => simpa using h.nodup
      | some id =>
        have hid : id ∉ s.userIds := by simp [h.userIds, hstore]
        rw [Option.toList_some, List.nodup_append]
        refine ⟨h.nodup, List.nodup_singleton _, fun a ha b hb heq => hid ?_⟩
        rwa [← List.mem_singleton.1 hb, ← heq]
    · rw [hstores, update_self]
    · rw [hcontents]
      exact hnew

/-- A store that is there gets other contents. -/
theorem putStore (h : s.Good) {store store' : FilterStore} (hstore : s.stores userId = some store)
    {c : Contents} (hc : store'.Good c) (hgood : c.Good s.filters) :
    (s.putStore userId store').Good ∧
      (s.putStore userId store').contents = update s.contents userId c := by
  have hcontents : (s.putStore userId store').contents = update s.contents userId c := by
    funext id
    rcases eq_or_ne id userId with rfl | hid
    · simpa only [Mgr.contents, Mgr.putStore, update_self] using hc.contents_eq
    · simp only [Mgr.contents, Mgr.putStore, update_of_ne hid]
  refine ⟨⟨h.null, h.glob, fun id st hid => ?_, fun id => ?_, fun id => ?_, h.nodup⟩, hcontents⟩
  · rw [hcontents]
    rcases eq_or_ne id userId with rfl | hne
    · simp only [Mgr.putStore, update_self] at hid
      rw [update_self, ← Option.some.inj hid]
      exact hc
    · simp only [Mgr.putStore, update_of_ne hne] at hid
      rw [update_of_ne hne]
      exact h.store id st hid
  · rw [hcontents]
    rcases eq_or_ne id userId with rfl | hne
    · rw [update_self]
      exact hgood
    · rw [update_of_ne hne]
      exact h.contents id
  · rw [show (s.putStore userId store').userIds = s.userIds from rfl, h.userIds]
    rcases eq_or_ne (some id) userId with rfl | hne
    · simp [hstore, Mgr.putStore]
    · simp only [Mgr.putStore, update_of_ne hne]

theorem save (h : s.Good) : s.save.Good :=
  ⟨h.null, h.glob, h.store, h.contents, h.userIds, h.nodup⟩

theorem setChanged (h : s.Good) (changed : Bool) : { s with changed := changed }.Good :=
  ⟨h.null, h.glob, h.store, h.contents, h.userIds, h.nodup⟩

/-- A user filter is refused, or the store gets it. -/
theorem newUserFilter (h : s.Good) (glob : Str) (userId : Option Str) :
    (s.filters glob = none ∧ filterNew glob glob true = none ∧ s.newUserFilter glob userId = s) ∨
      ∃ f, f.glob = glob ∧ s.Gives glob glob true f ∧
        (s.newUserFilter glob userId).Good ∧
        s.Puts (s.newUserFilter glob userId) userId f ((s.contents userId).addUser f) := by
  rcases h.newFilter glob glob true (fun _ => rfl) with
    ⟨hglob, hnone, hnew⟩ | ⟨f, s₁, hnew, h₁, hf, hknown, hfilters, hstores, hchanged, hfile⟩
  · exact .inl ⟨hglob, hnone, by rw [Mgr.newUserFilter, hnew]⟩
  · refine .inr ⟨f, hf, hknown, ?_⟩
    obtain ⟨store, s₂, hcreate, h₂, hstore, hgood, hcontents, hfilters₂, hchanged₂, hfile₂⟩ :=
      h₁.createStore userId
    have hcontents₁ : s₁.contents = s.contents := by
      funext id
      rw [Mgr.contents, Mgr.contents, hstores]
    rw [hcontents₁] at hgood hcontents
    have hf₂ : s₂.filters f.glob = some f := by rw [hfilters₂, hfilters, hf, update_self]
    have hc := h₂.contents userId
    rw [hcontents] at hc
    have hput := h₂.putStore hstore (hgood.addUser hc f) (hc.addUser hf₂)
    rw [Mgr.newUserFilter, hnew]
    simp only [hcreate]
    refine ⟨hput.1.save, ?_, ?_, ?_, ?_⟩
    · exact hfilters₂.trans (by rw [hfilters, hf])
    · exact hput.2.trans (by rw [hcontents])
    · exact hchanged₂.trans (by rw [hchanged, hf])
    · exact hfile₂.trans hfile

/-- A built-in filter is refused, or the store gets it. -/
theorem newBuiltinFilter (h : s.Good) (description glob : Str) (userId : Option Str)
    (position : ℤ) :
    (s.filters glob = none ∧ filterNew description glob false = none ∧
        s.newBuiltinFilter description glob userId position = s) ∨
      ∃ f i, f.glob = glob ∧
        s.Gives description glob false f ∧
        (s.newBuiltinFilter description glob userId position).Good ∧
        s.Puts (s.newBuiltinFilter description glob userId position) userId f
          ((s.contents userId).addBuiltin f i) := by
  rcases h.newFilter description glob false (by simp) with
    ⟨hglob, hnone, hnew⟩ | ⟨f, s₁, hnew, h₁, hf, hknown, hfilters, hstores, hchanged, hfile⟩
  · exact .inl ⟨hglob, hnone, by rw [Mgr.newBuiltinFilter, hnew]⟩
  · obtain ⟨store, s₂, hcreate, h₂, hstore, hgood, hcontents, hfilters₂, hchanged₂, hfile₂⟩ :=
      h₁.createStore userId
    have hcontents₁ : s₁.contents = s.contents := by
      funext id
      rw [Mgr.contents, Mgr.contents, hstores]
    rw [hcontents₁] at hgood hcontents
    have hf₂ : s₂.filters f.glob = some f := by rw [hfilters₂, hfilters, hf, update_self]
    have hc := h₂.contents userId
    rw [hcontents] at hc
    obtain ⟨i, hadd⟩ := hgood.addBuiltin hc f position
    have hput := h₂.putStore hstore hadd (hc.addBuiltin hf₂ i)
    refine .inr ⟨f, i, hf, hknown, ?_⟩
    rw [Mgr.newBuiltinFilter, hnew]
    simp only [hcreate]
    refine ⟨hput.1, ?_, ?_, ?_, ?_⟩
    · exact hfilters₂.trans (by rw [hfilters, hf])
    · exact hput.2.trans (by rw [hcontents])
    · exact hchanged₂.trans (by rw [hchanged, hf])
    · exact hfile₂.trans hfile

/-- A filter with a row in a store is chosen. -/
theorem setLast (h : s.Good)
    (hf : f ∈ (s.contents userId).builtins ∨ f ∈ (s.contents userId).users) :
    (s.setLast userId f).Good ∧ (s.setLast userId f).filters = s.filters ∧
      (s.setLast userId f).contents =
        update s.contents userId ((s.contents userId).choose f) ∧
      (s.setLast userId f).changed =
        (s.changed || decide ((s.contents userId).last ≠ f)) ∧
      (s.setLast userId f).file = s.file := by
  obtain ⟨store, s₂, hcreate, h₂, hstore, hgood, hcontents, hfilters₂, hchanged₂, hfile₂⟩ :=
    h.createStore userId
  rw [Mgr.setLast]
  simp only [hcreate, hgood.2, ne_eq, Option.some_inj]
  have hc := h₂.contents userId
  rw [hcontents] at hc
  split_ifs with hlast
  · refine ⟨h₂, hfilters₂, ?_, by simp [hchanged₂, hlast], hfile₂⟩
    have hsame : (s.contents userId).choose f = s.contents userId := by
      rw [Contents.choose, ← hlast]
    rw [hcontents, hsame, update_eq_self]
  · have hput := h₂.putStore hstore (hgood.choose f) (hc.choose hf)
    exact ⟨(hput.1.setChanged true).save, hfilters₂, hput.2.trans (by rw [hcontents]),
      by simp [Mgr.save, hlast], hfile₂⟩

/-- A row with a filter has one of the contents. -/
theorem setLastFilter (h : s.Good) (userId : Option Str) (row : ℕ) :
    s.setLastFilter userId row = s ∨
      ∃ f, (f ∈ (s.contents userId).builtins ∨ f ∈ (s.contents userId).users) ∧
        (s.stores userId).bind (·.filters[row]?.join) = some f ∧
        s.setLastFilter userId row = s.setLast userId f := by
  rw [Mgr.setLastFilter]
  cases hrow : (s.stores userId).bind (·.filters[row]?.join) with
  | none => exact .inl rfl
  | some f =>
    obtain ⟨store, hstore, hf⟩ := Option.bind_eq_some_iff.1 hrow
    have hmem : some f ∈ store.filters := List.mem_of_getElem? (Option.join_eq_some_iff.1 hf)
    rw [(h.store _ _ hstore).1.filters] at hmem
    exact .inr ⟨f, by simpa [List.mem_replicate] using hmem, rfl, rfl⟩

theorem initFilterCombo (h : s.Good) (userId : Option Str) :
    (s.initFilterCombo userId).Good ∧ (s.initFilterCombo userId).contents = s.contents ∧
      (s.initFilterCombo userId).filters = s.filters ∧
      (s.initFilterCombo userId).changed = s.changed ∧
      (s.initFilterCombo userId).file = s.file := by
  obtain ⟨store, s', hcreate, h', -, -, hcontents, hfilters, hchanged, hfile⟩ :=
    h.createStore userId
  rw [Mgr.initFilterCombo, hcreate]
  exact ⟨h', hcontents, hfilters, hchanged, hfile⟩

theorem init (file : File) : (init file).Good where
  null := rfl
  glob g f hf := by
    rcases eq_or_ne g allFilesGlob with rfl | hg
    · obtain rfl : Filters.nullFilter = f := Option.some.inj hf
      exact ⟨rfl, by decide, by decide⟩
    · simp [Mgr.init, update_of_ne hg] at hf
  store _ _ hstore := nomatch hstore
  contents _ := .new rfl
  userIds id := by simp [Mgr.init]
  nodup := List.nodup_nil

end Good

end Mgr

end Medit.Filters
