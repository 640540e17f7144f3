import Mathlib.Data.List.Basic
import Mathlib.Data.List.Nodup
import Mathlib.Data.List.ReduceOption
import Medit.Filters.Model
import Medit.Library.RecentItems

/-!
# Filter stores

A store stands for two lists of filters, the built-in ones and those of the user, of which it has
the most recent ones.

## Main definitions

* `FilterStore.Holds` — the rows of a store are those of two lists of filters.

## Main results

* `Holds.addBuiltin`, `Holds.addUser` — what is added to the lists.
-/

namespace Medit.Filters

open RecentItems

/-! ## Rows -/

section insertRow

variable {α β : Type*} {rows : List α} {i : ℕ} {row : α}

theorem insertRow_append_left (h : i ≤ rows.length) (rows' : List α) :
    insertRow (rows ++ rows') i row = insertRow rows i row ++ rows' := by
  simp [insertRow, List.take_append_of_le_length h, List.drop_append_of_le_length h]

theorem insertRow_length_append (rows rows' : List α) (row : α) :
    insertRow (rows ++ rows') rows.length row = rows ++ row :: rows' := by
  simp [insertRow]

theorem insertRow_map (f : α → β) :
    insertRow (rows.map f) i (f row) = (insertRow rows i row).map f := by
  simp [insertRow]

theorem insertRow_perm : (insertRow rows i row).Perm (row :: rows) := by
  have h : (insertRow rows i row).Perm (row :: (rows.take i ++ rows.drop i)) := List.perm_middle
  rwa [List.take_append_drop] at h

theorem mem_insertRow {a : α} : a ∈ insertRow rows i row ↔ a = row ∨ a ∈ rows := by
  rw [insertRow_perm.mem_iff, List.mem_cons]

theorem length_insertRow : (insertRow rows i row).length = rows.length + 1 :=
  insertRow_perm.length_eq

theorem nodup_insertRow (h : rows.Nodup) (hrow : row ∉ rows) : (insertRow rows i row).Nodup :=
  insertRow_perm.nodup_iff.2 (List.nodup_cons.2 ⟨hrow, h⟩)

theorem reduceOption_map_some (rows : List α) : (rows.map some).reduceOption = rows := by
  simp [List.reduceOption]

end insertRow

/-! ## What a store holds -/

namespace FilterStore

variable {store : FilterStore} {b u : List Filter} {sep : Bool} {f : Filter}

/-- The rows of a store with or without a separator between the built-in filters and the user's. -/
structure Laid (store : FilterStore) (b : List Filter) (sep : Bool) (u : List Filter) : Prop where
  filters : store.filters = b.map some ++ (List.replicate sep.toNat none ++ u.map some)
  numBuiltin : store.numBuiltin = b.length
  numUser : store.numUser = u.length
  hasSeparator : store.hasSeparator = sep
  maxNumUser : store.maxNumUser = numUserFilters

/-- The store has the built-in filters, then one separator if there are user filters too, then
these. -/
def Holds (store : FilterStore) (b u : List Filter) : Prop := store.Laid b (b ≠ [] ∧ u ≠ []) u

@[simp] theorem lastFilter_removeFound :
    (store.removeFound f).lastFilter = store.lastFilter := by
  rw [removeFound]
  split <;> rfl

@[simp] theorem lastFilter_insertUser : (store.insertUser f).lastFilter = store.lastFilter := rfl

@[simp] theorem lastFilter_separate : store.separate.lastFilter = store.lastFilter := by
  rw [separate]
  split_ifs <;> rfl

namespace Laid

variable (h : store.Laid b sep u)
include h

theorem setLast (last : Option Filter) : { store with lastFilter := last }.Laid b sep u :=
  ⟨h.filters, h.numBuiltin, h.numUser, h.hasSeparator, h.maxNumUser⟩

theorem offset_eq : store.offset = b.length + sep.toNat := by
  rw [offset, h.numBuiltin, h.hasSeparator]
  cases sep <;> rfl

theorem drop_offset : store.filters.drop store.offset = u.map some := by
  rw [h.filters, h.offset_eq, ← List.append_assoc]
  exact List.drop_left' (by simp)

theorem listUserFilters : store.listUserFilters = u := by
  rw [FilterStore.listUserFilters, h.drop_offset, h.numUser]
  split_ifs with hu
  · exact (List.eq_nil_of_length_eq_zero hu).symm
  · exact reduceOption_map_some u

theorem findBuiltin_iff : store.findBuiltin f ↔ f ∈ b := by
  rw [findBuiltin, h.filters, h.numBuiltin, List.take_left' (List.length_map _)]
  simp

theorem findUser_eq : store.findUser f = (u.idxOf? f).map (store.offset + ·) := by
  rw [findUser, h.drop_offset, h.numUser, List.take_of_length_le (by simp), List.findIdx?_map,
    List.idxOf?]
  congr 2
  funext g
  exact Bool.eq_iff_iff.2 (by simp)

theorem removeUser (i : ℕ) : (store.removeUser (store.offset + i)).Laid b sep (u.eraseIdx i) ∨
    u.length ≤ i := by
  rcases Nat.lt_or_ge i u.length with hi | hi
  · refine .inl ⟨?_, h.numBuiltin, ?_, h.hasSeparator, h.maxNumUser⟩
    · rw [FilterStore.removeUser, h.filters, h.offset_eq, ← List.append_assoc, ← List.append_assoc,
        List.eraseIdx_append_of_length_le (by simp)]
      simp [List.eraseIdx_map]
    · rw [FilterStore.removeUser, h.numUser, List.length_eraseIdx_of_lt hi]
  · exact .inr hi

theorem removeFound (f : Filter) : (store.removeFound f).Laid b sep (u.erase f) := by
  rw [FilterStore.removeFound, h.findUser_eq, List.erase_eq_eraseIdx]
  cases hidx : u.idxOf? f with
  | none => exact h
  | some i =>
    obtain ⟨hi, -⟩ := List.idxOf?_eq_some_iff.1 hidx
    exact (h.removeUser i).resolve_right (Nat.not_le.2 hi)

theorem insertUser (f : Filter) : (store.insertUser f).Laid b sep (f :: u) := by
  refine ⟨?_, h.numBuiltin, ?_, h.hasSeparator, h.maxNumUser⟩
  · rw [FilterStore.insertUser, h.filters, h.offset_eq, ← List.append_assoc]
    have hlen : b.length + sep.toNat = (b.map some ++ List.replicate sep.toNat none).length := by
      simp
    rw [hlen, insertRow_length_append, List.append_assoc]
    rfl
  · rw [FilterStore.insertUser, h.numUser, List.length_cons]

theorem separate (hb : b ≠ []) : store.separate.Laid b true u := by
  have hlen : store.numBuiltin ≠ 0 := by
    rw [h.numBuiltin]
    exact fun hzero => hb (List.eq_nil_of_length_eq_zero hzero)
  rw [FilterStore.separate, h.hasSeparator]
  cases sep with
  | true => simpa using h
  | false =>
    rw [if_pos (by simpa using hlen)]
    refine ⟨?_, h.numBuiltin, h.numUser, rfl, h.maxNumUser⟩
    have hb : b.length = (b.map some).length := by simp
    rw [h.filters, h.numBuiltin, hb, insertRow_length_append]
    rfl

end Laid

namespace Holds

/-- The filters of the user in a store and the last filter, after a user filter has been added. -/
theorem addUser (h : store.Holds b u) (hb : b ≠ []) (hu : u.length ≤ numUserFilters)
    (f : Filter) :
    (store.addUser f).Holds b (if f ∈ b then u else touch numUserFilters f u) ∧
      (store.addUser f).lastFilter = some f := by
  have h₀ := h.setLast (some f)
  rw [FilterStore.addUser]
  generalize hs₀ : { store with lastFilter := some f } = s₀ at h₀
  have hlast₀ : s₀.lastFilter = some f := hs₀ ▸ rfl
  clear hs₀
  by_cases hf : f ∈ b
  · rw [if_pos hf]
    dsimp only
    rw [if_pos (h₀.findBuiltin_iff.2 hf)]
    exact ⟨h₀, hlast₀⟩
  · rw [if_neg hf]
    dsimp only
    rw [if_neg (mt h₀.findBuiltin_iff.1 hf)]
    have h₁ := (h₀.removeFound f).insertUser f
    have h₂ := h₁.separate hb
    have hlast₂ : ((s₀.removeFound f).insertUser f).separate.lastFilter = some f := by
      rw [lastFilter_separate, lastFilter_insertUser, lastFilter_removeFound, hlast₀]
    generalize ((s₀.removeFound f).insertUser f).separate = s₂ at h₂ hlast₂
    have hsep : (decide (b ≠ [] ∧ touch numUserFilters f u ≠ [])) = true := by
      simp [hb, touch, numUserFilters]
    have hlen : (u.erase f).length ≤ u.length := List.length_erase_le
    rw [Holds, hsep, h₂.numUser, h₂.maxNumUser, List.length_cons]
    split_ifs with hmax
    · have hfull : (u.erase f).length = numUserFilters := by omega
      have hlaid := (h₂.removeUser (u.erase f).length).resolve_right (by simp)
      rw [List.eraseIdx_eq_dropLast (by simp), List.dropLast_eq_take] at hlaid
      rw [touch, ← hfull]
      exact ⟨hlaid, hlast₂⟩
    · rw [touch, List.take_of_length_le (by simp only [List.length_cons]; omega)]
      exact ⟨h₂, hlast₂⟩

/-- The built-in filters in a store and the last filter, after one has been added. -/
theorem addBuiltin (h : store.Holds b u) (hb : b ≠ [] ∨ u = []) (f : Filter) (position : ℤ) :
    ∃ i ≤ b.length, (position < 0 → i = b.length) ∧
      (store.addBuiltin f position).Holds (if f ∈ b then b else insertRow b i f) u ∧
        (store.addBuiltin f position).lastFilter = some f := by
  have h₀ := h.setLast (some f)
  rw [FilterStore.addBuiltin]
  generalize hs₀ : { store with lastFilter := some f } = s₀ at h₀
  have hlast₀ : s₀.lastFilter = some f := hs₀ ▸ rfl
  clear hs₀
  by_cases hf : f ∈ b
  · simp only [if_pos hf, if_pos (h₀.findBuiltin_iff.2 hf)]
    exact ⟨b.length, Nat.le_refl _, fun _ => rfl, h₀, hlast₀⟩
  · simp only [if_neg hf, if_neg (mt h₀.findBuiltin_iff.1 hf)]
    generalize hi : (if position < 0 ∨ position > s₀.numBuiltin then s₀.numBuiltin
      else position.toNat) = i
    rw [h₀.numBuiltin] at hi
    have hle : i ≤ b.length := by
      split_ifs at hi <;> omega
    have hsep : (decide (insertRow b i f ≠ [] ∧ u ≠ [])) = decide (b ≠ [] ∧ u ≠ []) := by
      rcases hb with hb | rfl
      · simp [hb, insertRow]
      · simp
    have hlaid : { s₀ with
        filters := insertRow s₀.filters i (some f)
        numBuiltin := s₀.numBuiltin + 1 }.Holds (insertRow b i f) u := by
      rw [Holds, hsep]
      refine ⟨?_, ?_, h₀.numUser, h₀.hasSeparator, h₀.maxNumUser⟩
      · have hle' : i ≤ (b.map some).length := by simpa using hle
        simp only [h₀.filters, insertRow_append_left hle', insertRow_map]
      · simp only [h₀.numBuiltin, length_insertRow]
    refine ⟨i, hle, fun hneg => ?_, ?_⟩
    · rw [if_pos (.inl hneg)] at hi
      exact hi.symm
    · rw [if_neg]
      · exact ⟨hlaid, hlast₀⟩
      · rintro ⟨hnum, hno⟩
        rw [h₀.numUser] at hnum
        rw [h₀.hasSeparator] at hno
        rcases hb with hb | rfl
        · simp_all
        · simp at hnum

theorem new (f : Filter) :
    (FilterStore.new (some f)).Holds [f] [] ∧ (FilterStore.new (some f)).lastFilter = some f := by
  have h : Holds ⟨[], none, 0, 0, false, numUserFilters⟩ [] [] := ⟨rfl, rfl, rfl, rfl, rfl⟩
  obtain ⟨i, -, hi, hholds, hlast⟩ := h.addBuiltin (.inr rfl) f (-1)
  obtain rfl : i = 0 := hi (by decide)
  exact ⟨hholds, hlast⟩

end Holds

end FilterStore

/-! ## Contents -/

/-- The filter for all files. -/
def nullFilter : Filter :=
  ⟨['A', 'l', 'l', ' ', 'F', 'i', 'l', 'e', 's'], allFilesGlob, false⟩

/-- What a store has for a dialog. -/
structure Contents where
  builtins : List Filter
  users : List Filter
  last : Filter
deriving DecidableEq, Repr

namespace Contents

variable {c : Contents} {f : Filter}

/-- A store that is new. -/
def new : Contents := ⟨[nullFilter], [], nullFilter⟩

/-- A filter of the user is chosen, which is the most recent one then. -/
def addUser (c : Contents) (f : Filter) : Contents :=
  { c with users := if f ∈ c.builtins then c.users else touch numUserFilters f c.users, last := f }

/-- A built-in filter is chosen, which gets a row at `i`. -/
def addBuiltin (c : Contents) (f : Filter) (i : ℕ) : Contents :=
  { c with builtins := if f ∈ c.builtins then c.builtins else insertRow c.builtins i f, last := f }

theorem mem_addBuiltin {g : Filter} {i : ℕ} :
    g ∈ (c.addBuiltin f i).builtins ↔ g = f ∨ g ∈ c.builtins := by
  simp only [addBuiltin]
  split_ifs with hb
  · exact ⟨.inr, fun hg => hg.elim (· ▸ hb) id⟩
  · exact mem_insertRow

/-- A filter is chosen that has a row. -/
def choose (c : Contents) (f : Filter) : Contents := { c with last := f }

/-- The filters of a store are among those that are known, none twice in one of the parts. -/
structure Good (filters : Str → Option Filter) (c : Contents) : Prop where
  null : nullFilter ∈ c.builtins
  builtins : c.builtins.Nodup
  users : c.users.Nodup
  length : c.users.length ≤ numUserFilters
  known : ∀ f, f ∈ c.builtins ∨ f ∈ c.users ∨ f = c.last → filters f.glob = some f
  last : c.last ∈ c.builtins ∨ c.last ∈ c.users

namespace Good

variable {filters filters' : Str → Option Filter}

theorem new (h : filters allFilesGlob = some nullFilter) : new.Good filters where
  null := List.mem_singleton_self _
  builtins := List.nodup_singleton _
  users := List.nodup_nil
  length := Nat.zero_le _
  known f hf := by
    obtain rfl : f = nullFilter := by simpa [Contents.new] using hf
    exact h
  last := .inl (List.mem_singleton_self _)

theorem mono (h : c.Good filters) (hle : ∀ f, filters f.glob = some f → filters' f.glob = some f) :
    c.Good filters' :=
  { h with known := fun f hf => hle f (h.known f hf) }

theorem addUser (h : c.Good filters) (hf : filters f.glob = some f) :
    (c.addUser f).Good filters := by
  by_cases hb : f ∈ c.builtins
  · refine ⟨h.null, h.builtins, ?_, ?_, fun g hg => ?_, .inl hb⟩
    · simpa [Contents.addUser, hb] using h.users
    · simpa [Contents.addUser, hb] using h.length
    · simp only [Contents.addUser, if_pos hb] at hg
      rcases hg with hg | hg | rfl
      · exact h.known g (.inl hg)
      · exact h.known g (.inr (.inl hg))
      · exact hf
  · refine ⟨h.null, h.builtins, ?_, ?_, fun g hg => ?_, .inr ?_⟩
    · simpa [Contents.addUser, hb] using nodup_touch h.users
    · simpa [Contents.addUser, hb] using length_touch _ _ _
    · simp only [Contents.addUser, if_neg hb] at hg
      rcases hg with hg | hg | rfl
      · exact h.known g (.inl hg)
      · rcases mem_touch hg with rfl | hg
        · exact hf
        · exact h.known g (.inr (.inl hg))
      · exact hf
    · simp [Contents.addUser, hb, touch, numUserFilters]

theorem addBuiltin (h : c.Good filters) (hf : filters f.glob = some f) (i : ℕ) :
    (c.addBuiltin f i).Good filters := by
  refine ⟨mem_addBuiltin.2 (.inr h.null), ?_, h.users, h.length, fun g hg => ?_,
    .inl (mem_addBuiltin.2 (.inl rfl))⟩
  · simp only [Contents.addBuiltin]
    split_ifs with hb
    · exact h.builtins
    · exact nodup_insertRow h.builtins hb
  · rcases hg with hg | hg | rfl
    · rcases mem_addBuiltin.1 hg with rfl | hg
      · exact hf
      · exact h.known g (.inl hg)
    · exact h.known g (.inr (.inl hg))
    · exact hf

theorem choose (h : c.Good filters) (hf : f ∈ c.builtins ∨ f ∈ c.users) :
    (c.choose f).Good filters :=
  { h with
    known := by
      rintro g (hg | hg | rfl)
      · exact h.known g (.inl hg)
      · exact h.known g (.inr (.inl hg))
      · exact h.known _ (hf.imp_right .inl)
    last := hf }

end Good

/-- A store that is written as it is: no filter is in both parts, those of the user are their own
descriptions, and the last filter, if it has the mark of the user, is the most recent one. -/
structure Sound (c : Contents) : Prop where
  apart : ∀ f ∈ c.builtins, f ∉ c.users
  builtins : ∀ f ∈ c.builtins, f.user = false
  users : ∀ f ∈ c.users, f.description = f.glob
  last : c.last.user → c.users.head? = some c.last

namespace Sound

theorem new : new.Sound where
  apart _ _ := List.not_mem_nil
  builtins f hf := by
    obtain rfl : f = nullFilter := by simpa [Contents.new] using hf
    rfl
  users _ hf := absurd hf List.not_mem_nil
  last h := absurd h (by decide)

theorem addUser (h : c.Sound) (hf : f ∈ c.builtins ∨ f.description = f.glob) :
    (c.addUser f).Sound := by
  by_cases hb : f ∈ c.builtins
  · simp only [Contents.addUser, if_pos hb]
    refine ⟨h.apart, h.builtins, h.users, fun huser => ?_⟩
    have := h.builtins f hb
    simp_all
  · simp only [Contents.addUser, if_neg hb]
    refine ⟨fun g hg hmem => ?_, h.builtins, fun g hg => ?_, fun _ => rfl⟩
    · rcases mem_touch hmem with rfl | hmem
      · exact hb hg
      · exact h.apart g hg hmem
    · rcases mem_touch hg with rfl | hg
      · exact hf.resolve_left hb
      · exact h.users g hg

theorem addBuiltin (h : c.Sound) (hf : f.user = false) (hu : f ∉ c.users) (i : ℕ) :
    (c.addBuiltin f i).Sound := by
  refine ⟨fun g hg => ?_, fun g hg => ?_, h.users, fun huser => ?_⟩
  · rcases mem_addBuiltin.1 hg with rfl | hg
    · exact hu
    · exact h.apart g hg
  · rcases mem_addBuiltin.1 hg with rfl | hg
    · exact hf
    · exact h.builtins g hg
  · have huser : f.user := huser
    simp [hf] at huser

theorem choose (h : c.Sound) (hf : f.user → c.users.head? = some f) : (c.choose f).Sound :=
  { h with last := hf }

end Sound

end Contents

/-- What a store stands for. -/
def FilterStore.contents (store : FilterStore) : Contents where
  builtins := (store.filters.take store.numBuiltin).reduceOption
  users := store.listUserFilters
  last := store.lastFilter.getD nullFilter

/-- The store has its contents in its rows. -/
def FilterStore.Good (store : FilterStore) (c : Contents) : Prop :=
  store.Holds c.builtins c.users ∧ store.lastFilter = some c.last

theorem FilterStore.Good.contents_eq {store : FilterStore} {c : Contents} (h : store.Good c) :
    store.contents = c := by
  obtain ⟨hholds, hlast⟩ := h
  rw [FilterStore.contents, hholds.listUserFilters, hlast, hholds.filters, hholds.numBuiltin,
    List.take_left' (List.length_map _), reduceOption_map_some]
  rfl

namespace FilterStore.Good

variable {store : FilterStore} {c : Contents} {filters : Str → Option Filter}

theorem addUser (h : store.Good c) (hc : c.Good filters) (f : Filter) :
    (store.addUser f).Good (c.addUser f) :=
  h.1.addUser (List.ne_nil_of_mem hc.null) hc.length f

theorem addBuiltin (h : store.Good c) (hc : c.Good filters) (f : Filter) (position : ℤ) :
    ∃ i, (store.addBuiltin f position).Good (c.addBuiltin f i) := by
  obtain ⟨i, -, -, hadd⟩ := h.1.addBuiltin (.inl (List.ne_nil_of_mem hc.null)) f position
  exact ⟨i, hadd⟩

theorem choose (h : store.Good c) (f : Filter) :
    { store with lastFilter := some f }.Good (c.choose f) :=
  ⟨h.1.setLast _, rfl⟩

end FilterStore.Good

end Medit.Filters
