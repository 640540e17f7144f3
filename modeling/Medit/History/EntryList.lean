import Mathlib.Data.List.Induction
import Mathlib.Logic.Function.Basic
import Mathlib.Logic.Function.Iterate
import Medit.Library.RecentItems

/-!
# Lists of entries

Translation of `MooHistoryList` from `mooutils/moohistorylist.cpp`: the rows of the model with their
counters, and the entries in the preferences, from which a list is loaded when it is created. Texts
are UTF-8, and the preferences are a tree here and no file. Nothing in the program puts built-in
entries into a list, which the code allows for.

## Main definitions

* `MooHistoryList` — a list with the preferences.
* `MooHistoryList.add`, `MooHistoryList.clear`, `MooHistoryList.setMaxEntries` — the calls.
* `MooHistoryList.create` — a list as its owner makes it.
* `MooHistoryList.additions` — the entries since the last clearing, newest first.

## Main results

* `MooHistoryList.entries_run` — what a list holds after any calls, and when it is the same after
  a restart.
-/

namespace Medit

/-- A `MooHistoryListItem`. -/
structure MooHistoryListItem where
  data : List Char
  display : List Char
  builtin : Bool
deriving DecidableEq

/-- What stands in the preferences below `recent-items`. -/
inductive RecentNode
  | item (content : Option (List Char))
  | element
  | text
deriving DecidableEq

/-- A list, of which a row without an item is a separator, and `recent-items` of each id. -/
structure MooHistoryList where
  rows : List (Option MooHistoryListItem)
  numUser : ℕ
  numBuiltin : ℕ
  hasSeparator : Bool
  useSeparator : Bool
  maxItems : ℕ
  prefsLoaded : Bool
  loading : Bool
  userId : Option String
  allowEmpty : Bool
  prefs : String → Option (List RecentNode)

namespace MooHistoryList

open RecentItems

/-! ## Rows -/

/-- `moo_history_list_find` -/
def find (list : MooHistoryList) (text : List Char) : Option ℕ :=
  list.rows.findIdx? fun row => row.any (·.data = text)

/-- `_list_insert` -/
def listInsert (list : MooHistoryList) (index : ℕ) (entry : Option MooHistoryListItem) :
    MooHistoryList :=
  { list with rows := list.rows.take index ++ entry :: list.rows.drop index }

/-- The index of the first entry that is not built in. -/
def firstUser (list : MooHistoryList) : ℕ := list.numBuiltin + if list.hasSeparator then 1 else 0

/-- `_list_move_on_top` -/
def listMoveOnTop (list : MooHistoryList) (oldIndex : ℕ) : MooHistoryList :=
  if oldIndex = list.firstUser then list
  else
    { list with rows := list.rows.eraseIdx oldIndex }.listInsert list.firstUser
      (list.rows[oldIndex]?).join

/-- `_list_delete_last`, with the counter. -/
def deleteLast (list : MooHistoryList) : MooHistoryList :=
  { list with rows := list.rows.dropLast, numUser := list.numUser - 1 }

/-- `moo_history_list_is_empty` -/
def isEmpty (list : MooHistoryList) : Bool := list.numBuiltin + list.numUser = 0

/-! ## Saving and loading -/

/-- `save_one` -/
def saveOne (row : Option MooHistoryListItem) : Option RecentNode :=
  match row with
  | none => none
  | some item => if item.builtin then none else some (.item (some item.data))

/-- `list_save_recent` -/
def listSaveRecent (list : MooHistoryList) : MooHistoryList :=
  match list.userId with
  | none => list
  | some id =>
    if list.loading then list
    else
      { list with
        prefs := Function.update list.prefs id
          (if list.numUser = 0 then none else some (list.rows.filterMap saveOne)) }

/-- `moo_history_list_add_full` after the list has been loaded. -/
def addLoaded (list : MooHistoryList) (entry display : List Char) : MooHistoryList :=
  match list.find entry with
  | some index =>
    if (list.rows[index]?).join.any (·.builtin) then list
    else (list.listMoveOnTop index).listSaveRecent
  | none =>
    let list :=
      if list.numBuiltin ≠ 0 ∧ ¬ list.hasSeparator ∧ list.useSeparator then
        { list.listInsert list.numBuiltin none with hasSeparator := true }
      else list
    let list := list.listInsert list.firstUser (some ⟨entry, display, false⟩)
    let list := { list with numUser := list.numUser + 1 }
    let list := if list.maxItems < list.numUser then list.deleteLast else list
    list.listSaveRecent

/-- A round of the loop in `_moo_history_list_load`. -/
def loadNode (list : MooHistoryList) : RecentNode → MooHistoryList
  | .item content =>
    if content.getD [] = [] then list else list.addLoaded (content.getD []) (content.getD [])
  | .element | .text => list

/-- `_moo_history_list_load`, from the last node to the first one. -/
def load (list : MooHistoryList) : MooHistoryList :=
  match list.userId with
  | none => list
  | some id =>
    if list.prefsLoaded then list
    else
      let list := { list with prefsLoaded := true }
      match list.prefs id with
      | none => list
      | some nodes =>
        { nodes.reverse.foldl loadNode { list with loading := true } with loading := false }

/-! ## Calls -/

/-- `moo_history_list_add_full` -/
def addFull (list : MooHistoryList) (entry display : List Char) : MooHistoryList :=
  if ¬ list.allowEmpty ∧ entry = [] then list else list.load.addLoaded entry display

/-- `moo_history_list_clear` -/
def clear (list : MooHistoryList) : MooHistoryList :=
  let list := list.load
  if list.numUser = 0 then list
  else
    let list := deleteLast^[list.numUser] list
    let list :=
      if list.hasSeparator then
        { list with rows := list.rows.eraseIdx list.numBuiltin, hasSeparator := false }
      else list
    list.listSaveRecent

/-- `moo_history_list_set_max_entries` -/
def setMaxEntries (list : MooHistoryList) (num : ℕ) : MooHistoryList :=
  if num = 0 then list else deleteLast^[list.numUser - num] { list with maxItems := num }

/-- `moo_history_list_new` with an id. -/
def new (prefs : String → Option (List RecentNode)) (userId : String) : MooHistoryList :=
  load ⟨[], 0, 0, false, true, 10, false, false, some userId, false, prefs⟩

/-- A list as its owner makes it. -/
def create (prefs : String → Option (List RecentNode)) (userId : String) (allowEmpty : Bool)
    (num : ℕ) : MooHistoryList :=
  setMaxEntries { new prefs userId with allowEmpty } num

inductive Call
  | add (entry display : List Char)
  | clear

def step (list : MooHistoryList) : Call → MooHistoryList
  | .add entry display => list.addFull entry display
  | .clear => list.clear

/-- The entries, from the first row on. -/
def entries (list : MooHistoryList) : List (List Char) := list.rows.filterMap (·.map (·.data))

/-- The entries that have been added since the last clearing, newest first, before those there were
at the start. -/
def additions (allowEmpty : Bool) (start : List (List Char)) : List Call → List (List Char)
  | [] => start
  | .clear :: _ => []
  | .add entry _ :: before =>
    if ¬ allowEmpty ∧ entry = [] then additions allowEmpty start before
    else entry :: additions allowEmpty start before

/-! ## The rows of a list of entries -/

/-- The rows are these entries, each once, and the counters say so. -/
structure Holds (list : MooHistoryList) (l : List (List Char)) : Prop where
  items : ∃ items : List MooHistoryListItem, list.rows = items.map some ∧
    (∀ item ∈ items, item.builtin = false) ∧ items.map (·.data) = l
  numUser : list.numUser = l.length
  numBuiltin : list.numBuiltin = 0
  hasSeparator : list.hasSeparator = false
  nodup : l.Nodup

/-- Nothing but the rows, the number of entries and the preferences is different. -/
structure Same (list list' : MooHistoryList) : Prop where
  maxItems : list'.maxItems = list.maxItems
  prefsLoaded : list'.prefsLoaded = list.prefsLoaded
  loading : list'.loading = list.loading
  userId : list'.userId = list.userId
  allowEmpty : list'.allowEmpty = list.allowEmpty

/-- The entries in the preferences. -/
def saved (l : List (List Char)) : Option (List RecentNode) :=
  if l = [] then none else some (l.map fun e => .item (some e))

variable {list : MooHistoryList} {l : List (List Char)} {entry display : List Char}

theorem Same.refl (list : MooHistoryList) : Same list list := ⟨rfl, rfl, rfl, rfl, rfl⟩

theorem Same.trans {list' list'' : MooHistoryList} (h : Same list list') (h' : Same list' list'') :
    Same list list'' :=
  ⟨h'.maxItems.trans h.maxItems, h'.prefsLoaded.trans h.prefsLoaded, h'.loading.trans h.loading,
    h'.userId.trans h.userId, h'.allowEmpty.trans h.allowEmpty⟩

theorem Holds.entries (h : list.Holds l) : list.entries = l := by
  obtain ⟨items, hrows, -, hl⟩ := h.items
  rw [MooHistoryList.entries, hrows, List.filterMap_map, ← hl, ← List.filterMap_eq_map]
  rfl

/-- What is saved of a list. -/
theorem Holds.filterMap_saveOne (h : list.Holds l) :
    list.rows.filterMap saveOne = l.map fun e => .item (some e) := by
  obtain ⟨items, hrows, hbuiltin, rfl⟩ := h.items
  rw [hrows, List.filterMap_map, List.map_map, ← List.filterMap_eq_map]
  refine List.filterMap_congr fun item hitem => ?_
  simp [saveOne, hbuiltin item hitem]

theorem Holds.listSaveRecent (h : list.Holds l) :
    list.listSaveRecent.Holds l ∧ Same list list.listSaveRecent ∧
      (list.loading = true → list.listSaveRecent.prefs = list.prefs) ∧
      ∀ id, list.userId = some id → list.loading = false →
        list.listSaveRecent.prefs = Function.update list.prefs id (saved l) := by
  unfold MooHistoryList.listSaveRecent
  cases hid : list.userId with
  | none => exact ⟨h, .refl list, fun _ => rfl, nofun⟩
  | some id =>
    cases hloading : list.loading with
    | true => exact ⟨h, .refl list, fun _ => rfl, nofun⟩
    | false =>
      refine ⟨⟨h.items, h.numUser, h.numBuiltin, h.hasSeparator, h.nodup⟩,
        ⟨rfl, rfl, hloading.symm ▸ rfl, hid.symm ▸ rfl, rfl⟩, nofun, ?_⟩
      rintro id' hid' -
      obtain rfl := Option.some.inj hid'
      simp only [Bool.false_eq_true, if_false, h.filterMap_saveOne, h.numUser, saved,
        List.length_eq_zero_iff]

/-! ## Finding an entry -/

theorem Holds.find_eq_none (h : list.Holds l) (hentry : entry ∉ l) : list.find entry = none := by
  obtain ⟨items, hrows, -, rfl⟩ := h.items
  rw [find, hrows, List.findIdx?_eq_none_iff]
  simp only [List.mem_map, forall_exists_index, and_imp, forall_apply_eq_imp_iff₂]
  intro item hitem
  have hne : item.data ≠ entry := fun heq => hentry (heq ▸ List.mem_map_of_mem hitem)
  simpa using hne

theorem Holds.find_eq_some (h : list.Holds l) (hentry : entry ∈ l) :
    ∃ (before after : List MooHistoryListItem) (item : MooHistoryListItem),
      list.rows = (before ++ item :: after).map some ∧ item.builtin = false ∧
      (∀ i ∈ before ++ after, i.builtin = false) ∧ item.data = entry ∧
      l = before.map (·.data) ++ entry :: after.map (·.data) ∧
      list.find entry = some before.length := by
  obtain ⟨items, hrows, hbuiltin, rfl⟩ := h.items
  obtain ⟨item, hitem, hdata⟩ := List.mem_map.1 hentry
  obtain ⟨before, after, rfl⟩ := List.append_of_mem hitem
  have hnotin : ∀ i ∈ before, i.data ≠ entry := by
    intro i hi heq
    have hnodup := h.nodup
    rw [List.map_append, List.nodup_append'] at hnodup
    exact hnodup.2.2 (List.mem_map_of_mem hi) (by simp [heq, hdata])
  refine ⟨before, after, item, hrows, hbuiltin item hitem, fun i hi => hbuiltin i (by
    rcases List.mem_append.1 hi with hi | hi <;> simp [hi]), hdata, by simp [hdata], ?_⟩
  rw [find, hrows, List.findIdx?_map, List.findIdx?_append, List.findIdx?_eq_none_iff.2]
  · simp [List.findIdx?_cons, hdata]
  · intro i hi
    simpa using hnotin i hi

/-! ## Adding an entry -/

theorem Holds.firstUser (h : list.Holds l) : list.firstUser = 0 := by
  simp [MooHistoryList.firstUser, h.numBuiltin, h.hasSeparator]

/-- The last entry goes away. -/
theorem Holds.deleteLast (h : list.Holds l) : list.deleteLast.Holds l.dropLast := by
  obtain ⟨items, hrows, hbuiltin, rfl⟩ := h.items
  refine ⟨⟨items.dropLast, ?_, fun i hi => hbuiltin i (List.dropLast_subset _ hi), ?_⟩, ?_,
    h.numBuiltin, h.hasSeparator, h.nodup.sublist (List.dropLast_sublist _)⟩
  · rw [MooHistoryList.deleteLast, hrows, List.map_dropLast]
  · rw [List.map_dropLast]
  · rw [MooHistoryList.deleteLast, h.numUser, List.length_dropLast]

theorem Holds.deleteLast_iterate (h : list.Holds l) (n : ℕ) :
    (MooHistoryList.deleteLast^[n] list).Holds (l.take (l.length - n)) ∧
      Same list (MooHistoryList.deleteLast^[n] list) ∧
      (MooHistoryList.deleteLast^[n] list).prefs = list.prefs := by
  induction n with
  | zero => exact ⟨by simpa using h, .refl list, rfl⟩
  | succ n ih =>
    obtain ⟨hholds, hsame, hprefs⟩ := ih
    rw [Function.iterate_succ_apply']
    refine ⟨?_, hsame.trans ⟨rfl, rfl, rfl, rfl, rfl⟩, hprefs⟩
    have hlast := hholds.deleteLast
    have hlength : min (min (l.length - n) l.length - 1) (l.length - n) = l.length - (n + 1) := by
      omega
    rwa [List.dropLast_eq_take, List.length_take, List.take_take, hlength] at hlast

/-- An entry that is there comes to the top. -/
theorem Holds.moveOnTop {before after : List MooHistoryListItem} {item : MooHistoryListItem}
    (h : list.Holds l) (hrows : list.rows = (before ++ item :: after).map some)
    (hitem : item.builtin = false) (hbuiltin : ∀ i ∈ before ++ after, i.builtin = false)
    (hl : l = before.map (·.data) ++ item.data :: after.map (·.data)) :
    (list.listMoveOnTop before.length).Holds
        (item.data :: (before.map (·.data) ++ after.map (·.data))) ∧
      Same list (list.listMoveOnTop before.length) ∧
      (list.listMoveOnTop before.length).prefs = list.prefs := by
  unfold listMoveOnTop
  rw [h.firstUser]
  split_ifs with htop
  · obtain rfl := List.eq_nil_of_length_eq_zero htop
    rw [hl] at h
    exact ⟨h, .refl list, rfl⟩
  · refine ⟨⟨⟨item :: (before ++ after), ?_, ?_, by simp⟩, ?_, h.numBuiltin, h.hasSeparator, ?_⟩,
      ⟨rfl, rfl, rfl, rfl, rfl⟩, rfl⟩
    · simp only [listInsert, hrows, List.take_zero, List.drop_zero, List.nil_append]
      rw [List.map_append, List.eraseIdx_append_of_length_le (by simp)]
      simp
    · exact List.forall_mem_cons.2 ⟨hitem, hbuiltin⟩
    · refine h.numUser.trans ?_
      rw [hl]
      simp
      omega
    · exact (List.perm_middle.nodup_iff).1 (hl ▸ h.nodup)

/-- An entry that is added to a list. -/
theorem Holds.addLoaded (h : list.Holds l) (hpos : 0 < list.maxItems)
    (hle : l.length ≤ list.maxItems) (entry display : List Char) :
    (list.addLoaded entry display).Holds (touch list.maxItems entry l) ∧
      Same list (list.addLoaded entry display) ∧
      (list.loading = true → (list.addLoaded entry display).prefs = list.prefs) ∧
      ∀ id, list.userId = some id → list.loading = false →
        (list.addLoaded entry display).prefs =
          Function.update list.prefs id (saved (touch list.maxItems entry l)) := by
  unfold MooHistoryList.addLoaded
  by_cases hentry : entry ∈ l
  · obtain ⟨before, after, item, hrows, hitem, hbuiltin, rfl, hl, hfind⟩ := h.find_eq_some hentry
    have hrow : (list.rows[before.length]?).join = some item := by
      rw [hrows]
      simp
    have htouch : touch list.maxItems item.data l =
        item.data :: (before.map (·.data) ++ after.map (·.data)) := by
      have hnodup := hl ▸ h.nodup
      rw [hl]
      refine touch_append_cons (fun hmem => ?_) (hl ▸ hle)
      exact (List.nodup_append'.1 hnodup).2.2 hmem List.mem_cons_self
    obtain ⟨hholds, hsame, hprefs⟩ := h.moveOnTop hrows hitem hbuiltin hl
    obtain ⟨hholds', hsame', hloading, hsaved⟩ := hholds.listSaveRecent
    simp only [hfind, hrow, Option.any_some, hitem, Bool.false_eq_true, if_false, htouch]
    refine ⟨hholds', hsame.trans hsame', fun hl => ?_, fun id hid hl => ?_⟩
    · rw [hloading (hsame.loading.trans hl), hprefs]
    · rw [hsaved id (hsame.userId.trans hid) (hsame.loading.trans hl), hprefs]
  · have htouch := touch_eq_take list.maxItems hentry
    set list₁ : MooHistoryList :=
      { list.listInsert list.firstUser (some ⟨entry, display, false⟩) with
        numUser := list.numUser + 1 } with hlist₁
    have hholds₁ : list₁.Holds (entry :: l) := by
      obtain ⟨items, hrows, hbuiltin, rfl⟩ := h.items
      refine ⟨⟨⟨entry, display, false⟩ :: items, ?_, ?_, rfl⟩, by simp [hlist₁, h.numUser],
        h.numBuiltin, h.hasSeparator, List.nodup_cons.2 ⟨hentry, h.nodup⟩⟩
      · simp [hlist₁, listInsert, h.firstUser, hrows]
      · exact List.forall_mem_cons.2 ⟨rfl, hbuiltin⟩
    have hcut : ((if list.maxItems < list.numUser + 1 then list₁.deleteLast else list₁).Holds
        (touch list.maxItems entry l)) ∧
        Same list (if list.maxItems < list.numUser + 1 then list₁.deleteLast else list₁) ∧
        (if list.maxItems < list.numUser + 1 then list₁.deleteLast else list₁).prefs =
          list.prefs := by
      rw [htouch, h.numUser]
      split_ifs with hmax
      · refine ⟨?_, ⟨rfl, rfl, rfl, rfl, rfl⟩, rfl⟩
        have heq : (entry :: l).length - 1 = list.maxItems := by
          rw [List.length_cons]
          omega
        rw [← heq, ← List.dropLast_eq_take]
        exact hholds₁.deleteLast
      · rw [List.take_of_length_le (by rw [List.length_cons]; omega)]
        exact ⟨hholds₁, ⟨rfl, rfl, rfl, rfl, rfl⟩, rfl⟩
    obtain ⟨hholds, hsame, hprefs⟩ := hcut
    obtain ⟨hholds', hsame', hloading, hsaved⟩ := hholds.listSaveRecent
    simp only [h.find_eq_none hentry, h.numBuiltin, ne_eq, not_true_eq_false, false_and, if_false]
    refine ⟨hholds', hsame.trans hsame', fun hl => ?_, fun id hid hl => ?_⟩
    · exact (hloading (hsame.loading.trans hl)).trans hprefs
    · exact (hsaved id (hsame.userId.trans hid) (hsame.loading.trans hl)).trans (by rw [hprefs])

/-! ## Loading -/

/-- The texts of the nodes that are loaded. -/
def texts (nodes : List RecentNode) : List (List Char) :=
  nodes.filterMap fun node =>
    match node with
    | .item content => if content.getD [] = [] then none else content
    | .element | .text => none

/-- The entries of a list that is created with these preferences. -/
def loaded (nodes : Option (List RecentNode)) (num : ℕ) : List (List Char) :=
  ((recent (texts (nodes.getD []))).take 10).take num

theorem Holds.loadNodes (h : list.Holds []) (hpos : 0 < list.maxItems)
    (hloading : list.loading = true) (nodes : List RecentNode) :
    (nodes.reverse.foldl loadNode list).Holds ((recent (texts nodes)).take list.maxItems) ∧
      Same list (nodes.reverse.foldl loadNode list) ∧
      (nodes.reverse.foldl loadNode list).prefs = list.prefs := by
  induction nodes with
  | nil => exact ⟨by simpa [texts] using h, .refl list, rfl⟩
  | cons node nodes ih =>
    obtain ⟨hholds, hsame, hprefs⟩ := ih
    rw [List.reverse_cons, List.foldl_append, List.foldl_cons, List.foldl_nil]
    set list' := nodes.reverse.foldl loadNode list
    have hskip (hnode : texts (node :: nodes) = texts nodes) (hstep : loadNode list' node = list') :
        (loadNode list' node).Holds ((recent (texts (node :: nodes))).take list.maxItems) ∧
          Same list (loadNode list' node) ∧ (loadNode list' node).prefs = list.prefs := by
      rw [hnode, hstep]
      exact ⟨hholds, hsame, hprefs⟩
    cases node with
    | element => exact hskip rfl rfl
    | text => exact hskip rfl rfl
    | item content =>
      by_cases hempty : content.getD [] = []
      · exact hskip (by simp [texts, hempty]) (by simp [loadNode, hempty])
      · obtain ⟨entry, rfl⟩ : ∃ entry, content = some entry := by
          cases content with
          | none => exact absurd rfl hempty
          | some entry => exact ⟨entry, rfl⟩
        have htexts : texts (.item (some entry) :: nodes) = entry :: texts nodes := by
          simp only [texts, List.filterMap_cons, if_neg hempty]
        have hmax := hsame.maxItems
        obtain ⟨hadd, hsame', hprefs', -⟩ := hholds.addLoaded (by omega)
          (by rw [hmax]; exact List.length_take_le _ _) entry entry
        have hstep : loadNode list' (.item (some entry)) = list'.addLoaded entry entry :=
          if_neg hempty
        rw [hstep, htexts]
        refine ⟨?_, hsame.trans hsame', (hprefs' (hsame.loading.trans hloading)).trans hprefs⟩
        rwa [hmax, touch_take_recent] at hadd

theorem load_of_loaded (h : list.prefsLoaded = true) : list.load = list := by
  unfold load
  cases list.userId with
  | none => rfl
  | some id => exact if_pos h

/-! ## Runs -/

/-- A list with these entries, as it is between two calls. -/
structure Ready (id : String) (allowEmpty : Bool) (num : ℕ) (list : MooHistoryList)
    (l : List (List Char)) : Prop where
  holds : list.Holds l
  length : l.length ≤ num
  maxItems : list.maxItems = num
  prefsLoaded : list.prefsLoaded = true
  loading : list.loading = false
  userId : list.userId = some id
  allowEmpty : list.allowEmpty = allowEmpty
  prefs : list.prefs id = saved l ∨ loaded (list.prefs id) num = l

variable {id : String} {allowEmpty : Bool} {num : ℕ}

theorem new_holds (prefs : String → Option (List RecentNode)) (id : String) :
    (new prefs id).Holds ((recent (texts ((prefs id).getD []))).take 10) ∧
      (new prefs id).prefsLoaded = true ∧ (new prefs id).loading = false ∧
      (new prefs id).userId = some id ∧ (new prefs id).prefs = prefs := by
  have hempty : Holds ⟨[], 0, 0, false, true, 10, true, true, some id, false, prefs⟩ [] :=
    ⟨⟨[], rfl, nofun, rfl⟩, rfl, rfl, rfl, List.nodup_nil⟩
  rw [new, load]
  cases hnodes : prefs id with
  | none =>
    simp only [hnodes]
    exact ⟨⟨⟨[], rfl, nofun, rfl⟩, rfl, rfl, rfl, List.nodup_nil⟩, rfl, rfl, rfl, rfl⟩
  | some nodes =>
    obtain ⟨hholds, hsame, hprefs⟩ := hempty.loadNodes (Nat.succ_pos 9) rfl nodes
    simp only [hnodes]
    exact ⟨⟨hholds.items, hholds.numUser, hholds.numBuiltin, hholds.hasSeparator, hholds.nodup⟩,
      hsame.prefsLoaded, rfl, hsame.userId, hprefs⟩

/-- A list when its owner has made it. -/
theorem create_ready (hnum : 0 < num) (prefs : String → Option (List RecentNode)) (id : String)
    (allowEmpty : Bool) :
    Ready id allowEmpty num (create prefs id allowEmpty num) (loaded (prefs id) num) := by
  obtain ⟨hholds, hprefsLoaded, hloading, huserId, hprefs⟩ := new_holds prefs id
  set l := (recent (texts ((prefs id).getD []))).take 10 with hl
  have hlist : Holds { new prefs id with allowEmpty, maxItems := num } l :=
    ⟨hholds.items, hholds.numUser, hholds.numBuiltin, hholds.hasSeparator, hholds.nodup⟩
  obtain ⟨hcut, hsame, hprefs'⟩ := hlist.deleteLast_iterate ((new prefs id).numUser - num)
  have htake : l.take (l.length - ((new prefs id).numUser - num)) = loaded (prefs id) num := by
    rw [hholds.numUser, loaded, ← hl]
    rcases Nat.le_total l.length num with hle | hle
    · rw [List.take_of_length_le (by omega), List.take_of_length_le hle]
    · rw [show l.length - (l.length - num) = num by omega]
  rw [htake] at hcut
  rw [create, setMaxEntries, if_neg (Nat.ne_of_gt hnum)]
  refine ⟨hcut, List.length_take_le _ _, hsame.maxItems, hsame.prefsLoaded.trans hprefsLoaded,
    hsame.loading.trans hloading, hsame.userId.trans huserId, hsame.allowEmpty, .inr ?_⟩
  rw [hprefs']
  exact congrArg (fun p => loaded (p id) num) hprefs

/-- A call keeps the most recent additions. -/
theorem Ready.step (hnum : 0 < num) {start : List (List Char)} {calls : List Call}
    (h : Ready id allowEmpty num list ((recent (additions allowEmpty start calls)).take num))
    (call : Call) :
    Ready id allowEmpty num (list.step call)
      ((recent (additions allowEmpty start (call :: calls))).take num) := by
  set l := (recent (additions allowEmpty start calls)).take num
  have hload := load_of_loaded h.prefsLoaded
  cases call with
  | add entry display =>
    rw [MooHistoryList.step, addFull, additions, h.allowEmpty, hload]
    split_ifs with hskip
    · exact h
    · obtain ⟨hholds, hsame, -, hsaved⟩ := h.holds.addLoaded (h.maxItems ▸ hnum)
        (h.maxItems ▸ h.length) entry display
      rw [h.maxItems] at hholds hsaved
      rw [← touch_take_recent]
      refine ⟨hholds, length_touch _ _ _, hsame.maxItems.trans h.maxItems,
        hsame.prefsLoaded.trans h.prefsLoaded, hsame.loading.trans h.loading,
        hsame.userId.trans h.userId, hsame.allowEmpty.trans h.allowEmpty, .inl ?_⟩
      rw [hsaved id h.userId h.loading, Function.update_self]
  | clear =>
    rw [MooHistoryList.step, MooHistoryList.clear, hload, additions, recent_nil, List.take_nil]
    split_ifs with hnone
    · have hl : l = [] := List.length_eq_zero_iff.1 (h.holds.numUser.symm.trans hnone)
      rwa [hl] at h
    · obtain ⟨hholds, hsame, hprefs⟩ := h.holds.deleteLast_iterate list.numUser
      rw [h.holds.numUser, Nat.sub_self, List.take_zero, ← h.holds.numUser] at hholds
      obtain ⟨hholds', hsame', -, hsaved⟩ := hholds.listSaveRecent
      simp only [hholds.hasSeparator, Bool.false_eq_true, if_false]
      refine ⟨hholds', Nat.zero_le _, (hsame.trans hsame').maxItems.trans h.maxItems,
        (hsame.trans hsame').prefsLoaded.trans h.prefsLoaded,
        (hsame.trans hsame').loading.trans h.loading, (hsame.trans hsame').userId.trans h.userId,
        (hsame.trans hsame').allowEmpty.trans h.allowEmpty, .inl ?_⟩
      rw [hsaved id (hsame.userId.trans h.userId) (hsame.loading.trans h.loading),
        Function.update_self]

theorem Ready.run (hnum : 0 < num) {start : List (List Char)}
    (h : Ready id allowEmpty num list start) (hstart : start.Nodup) (calls : List Call) :
    Ready id allowEmpty num (calls.foldl MooHistoryList.step list)
      ((recent (additions allowEmpty start calls.reverse)).take num) := by
  induction calls using List.reverseRec with
  | nil =>
    rw [List.reverse_nil, additions, recent_of_nodup hstart, List.take_of_length_le h.length]
    exact h
  | append_singleton calls call ih =>
    rw [List.foldl_append, List.reverse_append]
    exact ih.step hnum call

theorem texts_saved (l : List (List Char)) : texts ((saved l).getD []) = l.filter (· ≠ []) := by
  have hmap : texts (l.map fun e => .item (some e)) = l.filter (· ≠ []) := by
    induction l with
    | nil => rfl
    | cons entry l ih =>
      rw [List.map_cons, texts, List.filterMap_cons, List.filter_cons, ← ih]
      by_cases hempty : entry = [] <;> simp [hempty, texts]
  rw [saved]
  split_ifs with hl
  · rw [hl]
    rfl
  · exact hmap

/-- A list that is created again has the same entries if no more than the default number of
entries was saved, and no empty one. -/
theorem Ready.loaded_iff (h : Ready id allowEmpty num list l) :
    loaded (list.prefs id) num = l ↔ l.length ≤ 10 ∧ [] ∉ l := by
  have hloaded (nodes : Option (List RecentNode)) :
      (loaded nodes num).length ≤ 10 ∧ [] ∉ loaded nodes num := by
    refine ⟨Nat.le_trans (List.length_take_le' _ _) (List.length_take_le _ _), fun hmem => ?_⟩
    have hmem := mem_of_mem_recent (List.mem_of_mem_take (List.mem_of_mem_take hmem))
    obtain ⟨node, -, hnode⟩ := List.mem_filterMap.1 hmem
    cases node with
    | item content =>
      simp only at hnode
      split_ifs at hnode with hempty
      exact hempty (by simp [hnode])
    | element => cases hnode
    | text => cases hnode
  refine ⟨fun hl => hl ▸ hloaded _, fun ⟨hlength, hempty⟩ => ?_⟩
  rcases h.prefs with hprefs | hprefs
  · have hfilter : l.filter (· ≠ []) = l := by
      rw [List.filter_eq_self]
      intro e he
      have hne : e ≠ [] := fun heq => hempty (heq ▸ he)
      simpa using hne
    rw [loaded, hprefs, texts_saved, hfilter, recent_of_nodup h.holds.nodup,
      List.take_of_length_le hlength, List.take_of_length_le h.length]
  · exact hprefs

theorem entries_run (hnum : 0 < num) (prefs : String → Option (List RecentNode)) (id : String)
    (allowEmpty : Bool) (calls : List Call) :
    let start := create prefs id allowEmpty num
    let list := calls.foldl MooHistoryList.step start
    list.entries = (recent (additions allowEmpty start.entries calls.reverse)).take num ∧
      ((create list.prefs id allowEmpty num).entries = list.entries ↔
        list.entries.length ≤ 10 ∧ [] ∉ list.entries) := by
  have hstart := create_ready hnum prefs id allowEmpty
  have hrun := hstart.run hnum hstart.holds.nodup calls
  intro start list
  rw [(create_ready hnum list.prefs id allowEmpty).holds.entries, hrun.holds.entries,
    hstart.holds.entries]
  exact ⟨rfl, hrun.loaded_iff⟩

theorem entries_run_one :
    let start := create (fun _ => none) "MooFind" false 20
    let list := [Call.add ['a'] ['a']].foldl MooHistoryList.step start
    list.entries = (recent (additions false start.entries [Call.add ['a'] ['a']])).take 20 ∧
      ((create list.prefs "MooFind" false 20).entries = list.entries ↔
        list.entries.length ≤ 10 ∧ [] ∉ list.entries) :=
  entries_run (by decide) (fun _ => none) "MooFind" false [Call.add ['a'] ['a']]

/-- The eleventh entry that is searched for puts the first one out of the saved list. -/
theorem entries_run_eleven :
    let adds := "abcdefghijk".toList.map fun c => Call.add [c] [c]
    let list := adds.foldl MooHistoryList.step (create (fun _ => none) "MooFind" false 20)
    list.entries.length = 11 ∧ (create list.prefs "MooFind" false 20).entries ≠ list.entries := by
  decide

end MooHistoryList

end Medit
