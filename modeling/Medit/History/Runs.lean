import Medit.History.File

/-!
# Every run of a list of recent files

## Main definitions

* `HistoryMgr.step` — the operations, the messages of other instances, and what happens to the file.
* `HistoryMgr.Good` — the list and its table agree, and what the next operation does.
* `HistoryMgr.Allowed` — a file that is loaded does not list too many files.

## Main results

* `HistoryMgr.runs_good` — every run is good when such files are loaded only.
-/

namespace Medit

open Recent (uris)

/-- What happens to a list of recent files. -/
inductive HistoryEvent
  | add (item : HistoryItem)
  | update (item : HistoryItem)
  | remove (uri : List UInt8)
  | clear
  | list
  | receive (xml : Option Markup)
  | idle
  | disk (file : Option (List MarkupEvent))

namespace HistoryMgr

variable (mem : KeyedQueue.Allocator)

/-- One event; `disk` is another instance that writes the file. -/
def step (mgr : HistoryMgr) : HistoryEvent → HistoryMgr
  | .add item => mgr.addFileReal mem item true
  | .update item => mgr.updateFileReal mem item true
  | .remove uri => mgr.removeUriReal mem uri true
  | .clear => mgr.clearReal mem true
  | .list => mgr.ensureFiles mem
  | .receive xml => mgr.ipcCallback mem xml
  | .idle => if mgr.saveIdle then mgr.saveInIdle else mgr
  | .disk file => { mgr with file := file }

/-- The list and its table agree, and the next operation does what it should. -/
structure Good (mgr : HistoryMgr) : Prop where
  indexed : mgr.files.Indexed HistoryItem.uri
  nodup : (uris mgr.items).Nodup
  length_le : mgr.items.length ≤ maxItemNumber
  add : ∀ item notify, ∃ n ≠ 0, uris (mgr.addFileReal mem item notify).items =
    (item.uri :: (uris (mgr.ensureFiles mem).items).filter (· ≠ item.uri)).take n
  remove : ∀ uri notify, (mgr.removeUriReal mem uri notify).files.table uri = none ∧
    uris (mgr.removeUriReal mem uri notify).items =
      (uris (mgr.ensureFiles mem).items).filter (· ≠ uri)
  update : ∀ item notify, item.uri ∈ uris (mgr.ensureFiles mem).items →
    uris (mgr.updateFileReal mem item notify).items = uris (mgr.ensureFiles mem).items

/-- A file that is loaded does not list more than `MAX_ITEM_NUMBER` files. -/
def Allowed (mgr : HistoryMgr) : HistoryEvent → Prop
  | .idle | .disk _ => True
  | _ => mgr.loaded = false → (uris mgr.listed).dedup.length ≤ maxItemNumber

variable {mem} {mgr mgr' : HistoryMgr} {l : List HistoryItem}
  {msgs : List (Option HistoryItem × UpdateType)}

theorem Inv.new (named : Bool) (file : Option (List MarkupEvent)) : (new named file).Inv :=
  ⟨KeyedQueue.Indexed.empty, fun _ => rfl⟩

theorem Does.inv (h : Does mgr mgr' l msgs) : mgr'.Inv where
  indexed := h.indexed
  unloaded hl := by
    rw [h.loaded] at hl
    cases hl

theorem Does.length_eq (h : Does mgr mgr' l msgs) : mgr'.items.length = l.length := h.items.length_eq

/-! ## Loading first -/

theorem Inv.ensureFiles (h : mgr.Inv) : (mgr.ensureFiles mem).Inv := (does_ensureFiles mem h).inv

theorem Inv.loaded_ensureFiles (h : mgr.Inv) : (mgr.ensureFiles mem).loaded = true :=
  (does_ensureFiles mem h).loaded

theorem Inv.ensureFiles_twice (h : mgr.Inv) :
    (mgr.ensureFiles mem).ensureFiles mem = mgr.ensureFiles mem :=
  ensureFiles_of_loaded mem h.loaded_ensureFiles

theorem Inv.addFileReal_eq (h : mgr.Inv) (item : HistoryItem) (notify : Bool) :
    mgr.addFileReal mem item notify = (mgr.ensureFiles mem).addFileReal mem item notify := by
  rw [addFileReal, addFileReal, h.ensureFiles_twice]

theorem Inv.removeUriReal_eq (h : mgr.Inv) (uri : List UInt8) (notify : Bool) :
    mgr.removeUriReal mem uri notify = (mgr.ensureFiles mem).removeUriReal mem uri notify := by
  rw [removeUriReal, removeUriReal, h.ensureFiles_twice]

theorem Inv.updateFileReal_eq (h : mgr.Inv) (item : HistoryItem) (notify : Bool) :
    mgr.updateFileReal mem item notify = (mgr.ensureFiles mem).updateFileReal mem item notify := by
  rw [updateFileReal, updateFileReal, h.ensureFiles_twice]

theorem Inv.clearReal_eq (h : mgr.Inv) (notify : Bool) :
    mgr.clearReal mem notify = (mgr.ensureFiles mem).clearReal mem notify := by
  rw [clearReal, clearReal, h.ensureFiles_twice]

/-- As many files are loaded as the file lists. -/
theorem Inv.length_ensureFiles (h : mgr.Inv) (hl : mgr.loaded = false) :
    (mgr.ensureFiles mem).items.length = (uris mgr.listed).dedup.length := by
  rw [(does_ensureFiles mem h).length_eq, hl, ← Recent.length_load]
  rfl

/-! ## One event -/

/-- The table is right after a step, and a list that was not too long is not. -/
def Keeps (mgr mgr' : HistoryMgr) : Prop :=
  mgr'.Inv ∧ (mgr.items.length ≤ maxItemNumber → mgr'.items.length ≤ maxItemNumber)

theorem Does.keeps (h : Does mgr mgr' l msgs)
    (hl : mgr.items.length ≤ maxItemNumber → l.length ≤ maxItemNumber) : mgr.Keeps mgr' :=
  ⟨h.inv, fun hlen => h.length_eq.trans_le (hl hlen)⟩

theorem length_add_le {item : HistoryItem} (h : l.length ≤ maxItemNumber) :
    (Recent.add item l).length ≤ maxItemNumber := by
  have hfilter : (Recent.remove item.uri l).length ≤ l.length := List.length_filter_le ..
  unfold Recent.add Recent.trim
  split_ifs with hlong
  · rw [List.length_dropLast, List.length_cons]
    omega
  · omega

section

variable (hi : mgr.files.Indexed HistoryItem.uri) (hl : mgr.loaded = true)
include hi hl

theorem keeps_addFileReal (item : HistoryItem) (notify : Bool) :
    mgr.Keeps (mgr.addFileReal mem item notify) := by
  classical
  obtain ⟨tail, -, hdoes⟩ := does_addFileReal mem hi hl item notify
  exact hdoes.keeps length_add_le

theorem keeps_updateFileReal (item : HistoryItem) (notify : Bool) :
    mgr.Keeps (mgr.updateFileReal mem item notify) := by
  classical
  by_cases hmem : item.uri ∈ uris mgr.items
  · exact (does_updateFileReal mem hi hl item notify hmem).keeps (by simp [Recent.replace])
  · rw [updateFileReal_of_notMem mem hi hl hmem]
    exact keeps_addFileReal hi hl item true

theorem keeps_removeUriReal (uri : List UInt8) (notify : Bool) :
    mgr.Keeps (mgr.removeUriReal mem uri notify) := by
  obtain ⟨item, -, hdoes⟩ := does_removeUriReal mem hi hl uri notify
  exact hdoes.keeps (List.length_filter_le ..).trans

theorem keeps_clearReal (notify : Bool) : mgr.Keeps (mgr.clearReal mem notify) := by
  obtain ⟨msgs, hdoes⟩ := does_clearReal mem hi hl notify
  exact hdoes.keeps fun _ => Nat.zero_le _

theorem keeps_ipcCallback (xml : Option Markup) : mgr.Keeps (mgr.ipcCallback mem xml) := by
  have hsame : mgr.Keeps mgr := ⟨⟨hi, by simp [hl]⟩, id⟩
  rw [ipcCallback, ensureFiles_of_loaded mem hl]
  cases xml.bind parseUpdateItem with
  | none => exact hsame
  | some update =>
    obtain ⟨item, type⟩ := update
    cases type with
    | clear => cases item <;> exact keeps_clearReal hi hl false
    | update =>
      cases item with
      | none => exact hsame
      | some item => exact keeps_updateFileReal hi hl item false
    | remove =>
      cases item with
      | none => exact hsame
      | some item => exact keeps_removeUriReal hi hl item.uri false
    | add =>
      cases item with
      | none => exact hsame
      | some item => exact keeps_addFileReal hi hl item false

end

theorem Inv.keeps_save (h : mgr.Inv) : mgr.Keeps mgr.save := by
  unfold HistoryMgr.save
  split_ifs
  · exact ⟨⟨h.indexed, h.unloaded⟩, id⟩
  · exact ⟨⟨h.indexed, h.unloaded⟩, id⟩

theorem ipcCallback_eq (h : mgr.Inv) (xml : Option Markup) :
    mgr.ipcCallback mem xml = (mgr.ensureFiles mem).ipcCallback mem xml := by
  rw [ipcCallback, ipcCallback, h.ensureFiles_twice]

/-- An event either leaves the list, or changes it when it has been loaded. -/
theorem Inv.step_cases (h : mgr.Inv) (e : HistoryEvent) :
    mgr.Keeps (mgr.step mem e) ∨
      (∀ mgr', HistoryMgr.Allowed mgr' e =
        (mgr'.loaded = false → (uris mgr'.listed).dedup.length ≤ maxItemNumber)) ∧
      (mgr.ensureFiles mem).Keeps (mgr.step mem e) := by
  have hi := (@Inv.ensureFiles mem _ h).indexed
  have hl := @Inv.loaded_ensureFiles mem _ h
  cases e with
  | add item =>
    rw [HistoryMgr.step, h.addFileReal_eq]
    exact Or.inr ⟨fun _ => rfl, keeps_addFileReal hi hl item true⟩
  | update item =>
    rw [HistoryMgr.step, h.updateFileReal_eq]
    exact Or.inr ⟨fun _ => rfl, keeps_updateFileReal hi hl item true⟩
  | remove uri =>
    rw [HistoryMgr.step, h.removeUriReal_eq]
    exact Or.inr ⟨fun _ => rfl, keeps_removeUriReal hi hl uri true⟩
  | clear =>
    rw [HistoryMgr.step, h.clearReal_eq]
    exact Or.inr ⟨fun _ => rfl, keeps_clearReal hi hl true⟩
  | list => exact Or.inr ⟨fun _ => rfl, h.ensureFiles, id⟩
  | receive xml =>
    rw [HistoryMgr.step, ipcCallback_eq h]
    exact Or.inr ⟨fun _ => rfl, keeps_ipcCallback hi hl xml⟩
  | idle =>
    left
    unfold HistoryMgr.step
    dsimp only
    split_ifs
    · exact Inv.keeps_save ⟨h.indexed, h.unloaded⟩
    · exact ⟨h, id⟩
  | disk file => exact Or.inl ⟨⟨h.indexed, h.unloaded⟩, id⟩

theorem Inv.step (h : mgr.Inv) (e : HistoryEvent) : (mgr.step mem e).Inv := by
  obtain hkeeps | ⟨-, hkeeps⟩ := h.step_cases e
  · exact hkeeps.1
  · exact hkeeps.1

/-- The table is right, and the list is not too long. -/
def Fit (mgr : HistoryMgr) : Prop := mgr.Inv ∧ mgr.items.length ≤ maxItemNumber

theorem Fit.step (h : mgr.Fit) {e : HistoryEvent} (he : mgr.Allowed e) : (mgr.step mem e).Fit := by
  obtain hkeeps | ⟨hallowed, hkeeps⟩ := h.1.step_cases e
  · exact ⟨hkeeps.1, hkeeps.2 h.2⟩
  · refine ⟨hkeeps.1, hkeeps.2 ?_⟩
    rw [hallowed] at he
    cases hl : mgr.loaded with
    | true =>
      rw [ensureFiles_of_loaded mem hl]
      exact h.2
    | false =>
      rw [h.1.length_ensureFiles hl]
      exact he hl

/-! ## The next operation -/

theorem trim_eq_take (l : List HistoryItem) : ∃ n, (l ≠ [] → n ≠ 0) ∧ Recent.trim l = l.take n := by
  unfold Recent.trim
  split_ifs with hlong
  · refine ⟨l.length - 1, fun _ => ?_, List.dropLast_eq_take⟩
    simp only [maxItemNumber] at hlong
    omega
  · exact ⟨l.length, fun h => (List.length_pos_iff.2 h).ne', (List.take_length).symm⟩

theorem Fit.good (h : mgr.Fit) : mgr.Good mem := by
  classical
  have hi := (@Inv.ensureFiles mem _ h.1).indexed
  have hl := @Inv.loaded_ensureFiles mem _ h.1
  refine ⟨h.1.indexed, h.1.indexed.nodup_keys, h.2, ?_, ?_, ?_⟩
  · intro item notify
    obtain ⟨tail, -, hdoes⟩ := does_addFileReal mem hi hl item notify
    obtain ⟨n, hn, htake⟩ := trim_eq_take (item :: Recent.remove item.uri (mgr.ensureFiles mem).items)
    refine ⟨n, hn (by simp), ?_⟩
    rw [h.1.addFileReal_eq, hdoes.items.uris_eq, Recent.add, htake, uris, List.map_take,
      List.map_cons, ← Recent.uris_remove]
  · intro uri notify
    obtain ⟨item, -, hdoes⟩ := does_removeUriReal mem hi hl uri notify
    have huris := hdoes.items.uris_eq
    rw [Recent.uris_remove] at huris
    rw [h.1.removeUriReal_eq]
    refine ⟨hdoes.indexed.table_eq_none.2 ?_, huris⟩
    rw [show List.map HistoryItem.uri _ = _ from huris]
    simp
  · intro item notify hmem
    have hdoes := does_updateFileReal mem hi hl item notify hmem
    rw [h.1.updateFileReal_eq, hdoes.items.uris_eq, Recent.uris_replace]

/-- Files without data, of which the paths get longer. -/
def longList (n : ℕ) : List HistoryItem :=
  (List.range n).map fun k => HistoryItem.new (List.replicate k 97)

theorem nodup_longList (n : ℕ) : (uris (longList n)).Nodup := by
  rw [uris, longList, List.map_map]
  refine List.nodup_range.map fun a b hab => ?_
  simpa [HistoryItem.new] using congrArg List.length hab

theorem length_load_longList (n : ℕ) :
    ((new true (some (savedEvents (longList n)))).ensureFiles .above).items.length = n := by
  have hlisted : (new true (some (savedEvents (longList n)))).listed = longList n := by
    refine (historyItems_savedEvents _).trans (List.takeWhile_eq_self_iff.2 fun item hitem => ?_)
    obtain ⟨k, -, rfl⟩ := List.mem_map.1 hitem
    simp [HistoryItem.Keyed, HistoryItem.new]
  rw [(Inv.new _ _).length_ensureFiles rfl, hlisted, (nodup_longList n).dedup]
  simp [longList]

end HistoryMgr

end Medit
