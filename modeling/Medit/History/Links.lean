import Mathlib.Data.List.Forall2
import Mathlib.Data.List.Dedup
import Medit.History.Model
import Medit.Library.Machine

/-!
# The list of recent files and its table

What the operations do to the items and to the table, which has the link of every item.

## Main definitions

* `HistoryItem.Same` — items with the same URI and data.
* `Recent.add`, `Recent.update`, `Recent.remove` — the operations on a list of items.
* `HistoryMgr.Does` — what an operation does: the items that are left, and the messages.

## Main results

* `HistoryMgr.does_addFileReal`, `HistoryMgr.does_updateFileReal`,
  `HistoryMgr.does_removeUriReal` — the operations are those on the list of items.
-/

namespace Medit

/-! ## Items -/

namespace HistoryItem

/-- Items with the same URI and the same data. -/
def Same (a b : HistoryItem) : Prop := a.uri = b.uri ∧ ∀ key, a.get key = b.get key

theorem Same.refl (a : HistoryItem) : a.Same a := ⟨rfl, fun _ => rfl⟩

theorem Same.symm {a b : HistoryItem} (h : a.Same b) : b.Same a := ⟨h.1.symm, fun k => (h.2 k).symm⟩

theorem Same.trans {a b c : HistoryItem} (h : a.Same b) (h' : b.Same c) : a.Same c :=
  ⟨h.1.trans h'.1, fun k => (h.2 k).trans (h'.2 k)⟩

theorem lookup_eq_some {data : List (List UInt8 × List UInt8)} (h : (data.map Prod.fst).Nodup)
    {key value : List UInt8} : data.lookup key = some value ↔ (key, value) ∈ data := by
  induction data with
  | nil => simp
  | cons p data ih =>
    obtain ⟨k, v⟩ := p
    rw [List.map_cons, List.nodup_cons] at h
    have hk : (key, value) ∈ data → key ∈ data.map Prod.fst := fun hmem =>
      List.mem_map_of_mem (f := Prod.fst) hmem
    rw [List.lookup_cons]
    by_cases hkey : key = k
    · subst hkey
      grind
    · have hne : (key == k) = false := by simpa using hkey
      rw [hne]
      simp only [ih h.2, List.mem_cons, Prod.mk.injEq, hkey, false_and, false_or]

theorem get_eq_some (item : HistoryItem) {key value : List UInt8} :
    item.get key = some value ↔ (key, value) ∈ item.data := lookup_eq_some item.nodup

theorem equal_iff {a b : HistoryItem} : a.equal b = true ↔ a.Same b := by
  simp only [equal, Bool.and_eq_true, beq_iff_eq, List.all_eq_true, Prod.forall, ← get_eq_some]
  constructor
  · rintro ⟨⟨huri, hb⟩, ha⟩
    refine ⟨huri, fun key => Option.ext fun value => ⟨ha key value, hb key value⟩⟩
  · rintro ⟨huri, hget⟩
    exact ⟨⟨huri, fun key value h => (hget key).trans h⟩, fun key value h => (hget key).symm.trans h⟩

theorem set_new {item : HistoryItem} {key : List UInt8} (h : key ∉ item.data.map Prod.fst)
    (value : List UInt8) : (item.set key value).data = item.data ++ [(key, value)] := if_neg h

/-- Values put into an item one after another under keys that it does not have. -/
theorem data_foldl_set (data : List (List UInt8 × List UInt8)) (item : HistoryItem)
    (h : ((item.data ++ data).map Prod.fst).Nodup) :
    (data.foldl (fun item p => item.set p.1 p.2) item).data = item.data ++ data := by
  induction data generalizing item with
  | nil => simp
  | cons p data ih =>
    have hkey : p.1 ∉ item.data.map Prod.fst := by
      rw [List.map_append, List.map_cons, List.nodup_append] at h
      intro hmem
      exact h.2.2 _ hmem _ (by simp) rfl
    have hset := set_new hkey p.2
    rw [List.foldl_cons, ih _ (by rw [hset]; simpa using h), hset]
    simp

theorem uri_foldl_set (data : List (List UInt8 × List UInt8)) (item : HistoryItem) :
    (data.foldl (fun item p => item.set p.1 p.2) item).uri = item.uri := by
  induction data generalizing item with
  | nil => rfl
  | cons p data ih => exact ih _

theorem ext_data {a b : HistoryItem} (huri : a.uri = b.uri) (hdata : a.data = b.data) : a = b := by
  cases a
  cases b
  simp_all

@[simp] theorem copy_eq (item : HistoryItem) : item.copy = item := by
  refine ext_data (uri_foldl_set ..) ?_
  rw [copy, data_foldl_set _ _ (by simpa [new] using item.nodup)]
  rfl

end HistoryItem

/-! ## Lists of items -/

namespace Recent

/-- The URIs of items. -/
abbrev uris (items : List HistoryItem) : List (List UInt8) := items.map HistoryItem.uri

/-- A list that has got too long loses its last item. -/
def trim (items : List HistoryItem) : List HistoryItem :=
  if items.length > maxItemNumber then items.dropLast else items

def remove (uri : List UInt8) (items : List HistoryItem) : List HistoryItem :=
  items.filter (·.uri ≠ uri)

/-- An item comes first. -/
def add (item : HistoryItem) (items : List HistoryItem) : List HistoryItem :=
  trim (item :: remove item.uri items)

/-- An item is replaced where it is. -/
def replace (item : HistoryItem) (items : List HistoryItem) : List HistoryItem :=
  items.map fun b => if b.uri = item.uri then item else b

def update (item : HistoryItem) (items : List HistoryItem) : List HistoryItem :=
  if item.uri ∈ uris items then replace item items else add item items

/-- Lists with the same items. -/
abbrev Same : List HistoryItem → List HistoryItem → Prop := List.Forall₂ HistoryItem.Same

theorem Same.refl (items : List HistoryItem) : Same items items :=
  List.forall₂_same.2 fun a _ => HistoryItem.Same.refl a

theorem Same.symm {l₁ l₂ : List HistoryItem} (h : Same l₁ l₂) : Same l₂ l₁ := by
  induction h with
  | nil => exact .nil
  | cons hab _ ih => exact .cons hab.symm ih

theorem Same.trans {l₁ l₂ l₃ : List HistoryItem} (h : Same l₁ l₂) (h' : Same l₂ l₃) : Same l₁ l₃ := by
  induction h generalizing l₃ with
  | nil => exact h'
  | cons hab _ ih =>
    cases h' with
    | cons hbc h' => exact .cons (hab.trans hbc) (ih h')

theorem Same.uris_eq {l₁ l₂ : List HistoryItem} (h : Same l₁ l₂) : uris l₁ = uris l₂ := by
  induction h with
  | nil => rfl
  | cons hab _ ih => simp only [uris, List.map_cons] at ih ⊢; rw [hab.1, ih]

theorem Same.remove {l₁ l₂ : List HistoryItem} (h : Same l₁ l₂) (uri : List UInt8) :
    Same (remove uri l₁) (remove uri l₂) := by
  induction h with
  | nil => exact .nil
  | cons hab _ ih =>
    simp only [Recent.remove, List.filter_cons, hab.1] at ih ⊢
    split_ifs
    · exact .cons hab ih
    · exact ih

theorem Same.trim {l₁ l₂ : List HistoryItem} (h : Same l₁ l₂) : Same (trim l₁) (trim l₂) := by
  unfold Recent.trim
  rw [h.length_eq]
  split_ifs
  · rw [List.dropLast_eq_take, List.dropLast_eq_take, h.length_eq]
    exact List.forall₂_take _ h
  · exact h

theorem Same.add {l₁ l₂ : List HistoryItem} (h : Same l₁ l₂) {a b : HistoryItem} (hab : a.Same b) :
    Same (add a l₁) (add b l₂) := by
  unfold Recent.add
  rw [hab.1]
  exact Same.trim (.cons hab (h.remove _))

theorem Same.replace {l₁ l₂ : List HistoryItem} (h : Same l₁ l₂) {a b : HistoryItem}
    (hab : a.Same b) : Same (replace a l₁) (replace b l₂) := by
  induction h with
  | nil => exact .nil
  | cons hcd _ ih =>
    simp only [Recent.replace, List.map_cons, hcd.1, hab.1] at ih ⊢
    split_ifs
    · exact .cons hab ih
    · exact .cons hcd ih

theorem Same.update {l₁ l₂ : List HistoryItem} (h : Same l₁ l₂) {a b : HistoryItem}
    (hab : a.Same b) : Same (update a l₁) (update b l₂) := by
  unfold Recent.update
  rw [hab.1, h.uris_eq]
  split_ifs
  · exact h.replace hab
  · exact h.add hab

/-- An added item is the first one. -/
theorem head?_add (item : HistoryItem) (items : List HistoryItem) :
    (add item items).head? = some item := by
  unfold add trim
  split_ifs with hlong
  · rw [List.dropLast_eq_take, List.head?_take, if_neg, List.head?_cons]
    simp only [maxItemNumber] at hlong
    omega
  · rfl

theorem uris_trim (items : List HistoryItem) : uris (trim items) =
    if (uris items).length > maxItemNumber then (uris items).dropLast else uris items := by
  unfold trim
  rw [List.length_map]
  split_ifs
  · exact List.map_dropLast
  · rfl

theorem remove_of_notMem {uri : List UInt8} {items : List HistoryItem} (h : uri ∉ uris items) :
    remove uri items = items := by
  refine List.filter_eq_self.2 fun a ha => ?_
  simp only [ne_eq, decide_not, Bool.not_eq_eq_eq_not, Bool.not_true, decide_eq_false_iff_not]
  rintro rfl
  exact h (List.mem_map_of_mem ha)

theorem uris_replace (item : HistoryItem) (items : List HistoryItem) :
    uris (replace item items) = uris items := by
  rw [uris, replace, List.map_map]
  refine List.map_congr_left fun b _ => ?_
  simp only [Function.comp]
  split_ifs with h
  · exact h.symm
  · rfl

theorem uris_remove (uri : List UInt8) (items : List HistoryItem) :
    uris (remove uri items) = (uris items).filter (· ≠ uri) := by
  rw [uris, remove, List.filter_map]
  rfl

/-- Where items are is decided by their URIs. -/
theorem uris_add {a b : HistoryItem} (hab : a.uri = b.uri) {l₁ l₂ : List HistoryItem}
    (h : uris l₁ = uris l₂) : uris (add a l₁) = uris (add b l₂) := by
  have hcons : uris (a :: remove a.uri l₁) = uris (b :: remove b.uri l₂) := by
    have h₁ := uris_remove a.uri l₁
    have h₂ := uris_remove b.uri l₂
    rw [uris] at h₁ h₂
    rw [uris, uris, List.map_cons, List.map_cons, h₁, h₂, h, hab]
  rw [add, add, uris_trim, uris_trim, hcons]

end Recent

/-! ## The operations -/

namespace HistoryMgr

/-- The items of the list, from the first. -/
abbrev items (mgr : HistoryMgr) : List HistoryItem := mgr.files.items

/-- The table has the link of each item, and there are none before the file has been loaded. -/
structure Inv (mgr : HistoryMgr) : Prop where
  indexed : mgr.files.Indexed HistoryItem.uri
  unloaded : mgr.loaded = false → mgr.files.links = []

/-- From `mgr` an operation has come to `mgr'`, which lists `items`, and sent `msgs`. -/
structure Does (mgr mgr' : HistoryMgr) (items : List HistoryItem)
    (msgs : List (Option HistoryItem × UpdateType)) : Prop where
  indexed : mgr'.files.Indexed HistoryItem.uri
  loaded : mgr'.loaded = true
  named : mgr'.named = mgr.named
  items : Recent.Same mgr'.items items
  sent : mgr'.sent = mgr.sent ++ if mgr.named then msgs.map fun m => formatForUpdate m.1 m.2 else []

variable {mgr mgr' mgr'' : HistoryMgr} {l l' : List HistoryItem}
  {msgs msgs' : List (Option HistoryItem × UpdateType)}

theorem Does.trans (h : Does mgr mgr' l msgs) (h' : Does mgr' mgr'' l' msgs') :
    Does mgr mgr'' l' (msgs ++ msgs') where
  indexed := h'.indexed
  loaded := h'.loaded
  named := h'.named.trans h.named
  items := h'.items
  sent := by
    rw [h'.sent, h.sent, h.named]
    split_ifs <;> simp

theorem Does.same (h : Does mgr mgr' l msgs) (hl : Recent.Same l l') : Does mgr mgr' l' msgs :=
  { h with items := h.items.trans hl }

/-- Nothing changes. -/
theorem Does.refl (hi : mgr.files.Indexed HistoryItem.uri) (hl : mgr.loaded = true) :
    Does mgr mgr mgr.items [] where
  indexed := hi
  loaded := hl
  named := rfl
  items := Recent.Same.refl _
  sent := by simp

/-- The list changes, and other instances are told of it if that is wanted. -/
theorem Does.change {files : KeyedQueue (List UInt8) HistoryItem} (n : ℕ)
    (hi : files.Indexed HistoryItem.uri) (hl : mgr.loaded = true) (notify : Bool)
    (item : Option HistoryItem) (type : UpdateType) :
    Does mgr (if notify then
        ({ mgr with files := files, allocs := n } : HistoryMgr).scheduleSave.ipcNotify item type
      else { mgr with files := files, allocs := n }) files.items
      (if notify then [(item, type)] else []) := by
  cases notify with
  | false => exact ⟨hi, hl, rfl, Recent.Same.refl _, by simp⟩
  | true =>
    rw [if_pos rfl, if_pos rfl, ipcNotify, scheduleSave]
    by_cases hn : mgr.named = true
    · rw [if_pos hn]
      exact ⟨hi, hl, rfl, Recent.Same.refl _, by simp [hn]⟩
    · rw [if_neg hn]
      exact ⟨hi, hl, rfl, Recent.Same.refl _, by simp [hn]⟩

variable (mem : KeyedQueue.Allocator)

theorem ensureFiles_of_loaded (hl : mgr.loaded = true) : mgr.ensureFiles mem = mgr := if_pos hl

theorem mem_uris_iff (hi : mgr.files.Indexed HistoryItem.uri) {uri : List UInt8} :
    uri ∈ Recent.uris mgr.items ↔ ∃ link, mgr.files.table uri = some link := by
  constructor
  · exact hi.exists_of_mem
  · rintro ⟨link, hlink⟩
    by_contra hmem
    rw [hi.table_eq_none.2 hmem] at hlink
    cases hlink

/-- Removing a file, of which other instances are told when it was there. -/
theorem does_removeUriReal (hi : mgr.files.Indexed HistoryItem.uri) (hl : mgr.loaded = true)
    (uri : List UInt8) (notify : Bool) : ∃ item : HistoryItem, item.uri = uri ∧
      Does mgr (mgr.removeUriReal mem uri notify) (Recent.remove uri mgr.items)
        (if uri ∈ Recent.uris mgr.items ∧ notify then [(some item, .remove)] else []) := by
  have huris := @mem_uris_iff _ hi uri
  rw [removeUriReal, ensureFiles_of_loaded mem hl]
  cases ht : mgr.files.table uri with
  | none =>
    have hmem := hi.table_eq_none.1 ht
    refine ⟨HistoryItem.new uri, rfl, ?_⟩
    rw [Recent.remove_of_notMem hmem, if_neg fun h => hmem h.1]
    exact .refl hi hl
  | some link =>
    have hmem : uri ∈ Recent.uris mgr.items := huris.2 ⟨link, ht⟩
    refine ⟨mgr.files.data link, ((hi.table_iff _ _).1 ht).2, ?_⟩
    have hitems := hi.items_remove ht
    simp only [hmem, true_and]
    refine (Does.change mgr.allocs (hi.remove ht) hl notify (some (mgr.files.data link))
      .remove).same ?_
    rw [hitems]
    exact Recent.Same.refl _

/-- The last item is the only one with its URI. -/
theorem remove_last {l : List HistoryItem} (h : (Recent.uris l).Nodup) {tail : HistoryItem}
    (ht : l.getLast? = some tail) : Recent.remove tail.uri l = l.dropLast := by
  obtain ⟨init, rfl⟩ := List.getLast?_eq_some_iff.1 ht
  rw [Recent.uris, List.map_append, List.nodup_append] at h
  have hinit : tail.uri ∉ Recent.uris init := fun hmem => h.2.2 _ hmem _ (by simp) rfl
  have hkeep := Recent.remove_of_notMem hinit
  rw [Recent.remove] at hkeep
  rw [Recent.remove, List.filter_append, hkeep]
  simp

/-- The check of the length. -/
theorem does_trim (hi : mgr.files.Indexed HistoryItem.uri) (hl : mgr.loaded = true) :
    ∃ tail : HistoryItem, (mgr.items.length > maxItemNumber →
        Recent.remove tail.uri mgr.items = Recent.trim mgr.items) ∧
      Does mgr (mgr.trim mem) (Recent.trim mgr.items)
        (if mgr.items.length > maxItemNumber then [(some tail, .remove)] else []) := by
  have hlen : mgr.files.links.length = mgr.items.length := by simp [KeyedQueue.items]
  unfold trim Recent.trim
  rw [hlen]
  by_cases hlong : mgr.items.length > maxItemNumber
  · simp only [if_pos hlong]
    obtain ⟨link, hlink⟩ : ∃ link, mgr.files.links.getLast? = some link := by
      refine Option.ne_none_iff_exists'.1 fun hnone => ?_
      rw [List.getLast?_eq_none_iff] at hnone
      rw [← hlen, hnone] at hlong
      simp at hlong
    have htail : mgr.items.getLast? = some (mgr.files.data link) := by
      rw [items, KeyedQueue.items, List.getLast?_map, hlink, Option.map_some]
    have hmem := List.mem_map_of_mem (f := HistoryItem.uri) (List.mem_of_getLast? htail)
    have hlast := remove_last hi.nodup_keys htail
    obtain ⟨tail, huri, hdoes⟩ := does_removeUriReal mem hi hl (mgr.files.data link).uri true
    refine ⟨tail, fun _ => huri ▸ hlast, ?_⟩
    rw [hlink, ← hlast]
    simpa [hmem] using hdoes
  · simp only [if_neg hlong]
    exact ⟨default, fun h => absurd h hlong, .refl hi hl⟩

/-- An item that is first as it is. -/
def Placed (item : HistoryItem) (l : List HistoryItem) : Prop := ∃ b ∈ l.head?, item.Same b

/-- An item that is listed as it is. -/
def Listed (item : HistoryItem) (l : List HistoryItem) : Prop := ∃ b ∈ l, b.Same item

theorem Placed.same_cons {item : HistoryItem} (h : (Recent.uris l).Nodup) (hp : Placed item l) :
    Recent.Same l (item :: Recent.remove item.uri l) := by
  obtain ⟨b, hb, hsame⟩ := hp
  cases l with
  | nil => cases hb
  | cons c rest =>
    obtain rfl : c = b := by simpa using hb
    rw [Recent.uris, List.map_cons, List.nodup_cons, ← hsame.1] at h
    have hrest := Recent.remove_of_notMem h.1
    rw [Recent.remove] at hrest
    rw [Recent.remove, List.filter_cons, hrest, if_neg (by simp [hsame.1])]
    exact .cons hsame.symm (Recent.Same.refl _)

theorem placed_iff (hi : mgr.files.Indexed HistoryItem.uri) {item : HistoryItem} {link : ℕ}
    (ht : mgr.files.table item.uri = some link) : Placed item mgr.items ↔
      mgr.files.links.head? = some link ∧ item.Same (mgr.files.data link) := by
  obtain ⟨hmem, hkey⟩ := (hi.table_iff _ _).1 ht
  have hhead : mgr.items.head? = mgr.files.links.head?.map mgr.files.data := List.head?_map ..
  rw [Placed, hhead]
  constructor
  · rintro ⟨b, hb, hsame⟩
    obtain ⟨first, hfirst, rfl⟩ := Option.map_eq_some_iff.1 hb
    obtain rfl : first = link :=
      hi.key_inj (List.mem_of_mem_head? hfirst) hmem (hsame.1.symm.trans hkey.symm)
    exact ⟨hfirst, hsame⟩
  · rintro ⟨hfirst, hsame⟩
    exact ⟨_, by rw [hfirst]; rfl, hsame⟩

/-- The list after an item has come first, before its length is checked. -/
theorem does_place (hi : mgr.files.Indexed HistoryItem.uri) (hl : mgr.loaded = true)
    (item : HistoryItem) (notify : Bool) [Decidable (Placed item mgr.items)] :
    ∃ mgr', mgr.addFileReal mem item notify = mgr'.trim mem ∧
      Does mgr mgr' (item :: Recent.remove item.uri mgr.items)
        (if notify ∧ ¬ Placed item mgr.items then [(some item, .add)] else []) := by
  refine ⟨_, rfl, ?_⟩
  rw [ensureFiles_of_loaded mem hl]
  cases ht : mgr.files.table item.uri with
  | none =>
    have hmem := hi.table_eq_none.1 ht
    have hnew : mgr.alloc mem ∉ mgr.files.links := mem.fresh _ _
    have hplaced : ¬ Placed item mgr.items := by
      rintro ⟨b, hb, hsame⟩
      exact hmem (hsame.1 ▸ List.mem_map_of_mem (List.mem_of_mem_head? hb))
    simp only [hplaced, not_false_eq_true, and_true, HistoryItem.copy_eq]
    refine (Does.change (mgr.allocs + 1) (hi.pushHead hnew ht) hl notify (some item) .add).same ?_
    rw [KeyedQueue.Indexed.items_pushHead hnew, Recent.remove_of_notMem hmem]
    exact Recent.Same.refl _
  | some link =>
    have hplaced := placed_iff hi ht
    by_cases hsame : Placed item mgr.items
    · obtain ⟨hfirst, hequal⟩ := hplaced.1 hsame
      simp only [hfirst, HistoryItem.equal_iff.2 hequal, hsame, ne_eq, not_true_eq_false,
        Bool.not_true, Bool.false_eq_true, or_self, if_false, and_false]
      exact (Does.refl hi hl).same (hsame.same_cons hi.nodup_keys)
    · have hchange : mgr.files.links.head? ≠ some link ∨ (!item.equal (mgr.files.data link)) = true := by
        rw [hplaced, not_and_or, ← HistoryItem.equal_iff] at hsame
        simpa using hsame
      simp only [if_pos hchange, hsame, not_false_eq_true, and_true, HistoryItem.copy_eq]
      refine (Does.change mgr.allocs (hi.moveToHead ht) hl notify (some item) .add).same ?_
      rw [hi.items_moveToHead ht]
      exact Recent.Same.refl _

/-- Adding a file. -/
theorem does_addFileReal (hi : mgr.files.Indexed HistoryItem.uri) (hl : mgr.loaded = true)
    (item : HistoryItem) (notify : Bool) [Decidable (Placed item mgr.items)] :
    let items := item :: Recent.remove item.uri mgr.items
    ∃ tail : HistoryItem, (items.length > maxItemNumber →
        Recent.Same (Recent.remove tail.uri items) (Recent.add item mgr.items)) ∧
      Does mgr (mgr.addFileReal mem item notify) (Recent.add item mgr.items)
        ((if notify ∧ ¬ Placed item mgr.items then [(some item, .add)] else []) ++
          if items.length > maxItemNumber then [(some tail, .remove)] else []) := by
  intro items
  obtain ⟨placed, heq, hplace⟩ := does_place mem hi hl item notify
  obtain ⟨tail, htail, htrim⟩ := does_trim mem hplace.indexed hplace.loaded
  have hsame := hplace.items
  rw [hsame.length_eq] at htail htrim
  rw [heq]
  refine ⟨tail, fun hlong => ?_, hplace.trans (htrim.same hsame.trim)⟩
  have hremove := (hsame.remove tail.uri).symm
  rw [htail hlong] at hremove
  exact hremove.trans hsame.trim

theorem listed_iff (hi : mgr.files.Indexed HistoryItem.uri) {item : HistoryItem} {link : ℕ}
    (ht : mgr.files.table item.uri = some link) : Listed item mgr.items ↔
      (mgr.files.data link).Same item := by
  obtain ⟨hmem, hkey⟩ := (hi.table_iff _ _).1 ht
  constructor
  · rintro ⟨b, hb, hsame⟩
    obtain ⟨l, hl, rfl⟩ := List.mem_map.1 hb
    obtain rfl : l = link := hi.key_inj hl hmem (hsame.1.trans hkey.symm)
    exact hsame
  · intro hsame
    exact ⟨_, List.mem_map_of_mem hmem, hsame⟩

theorem Listed.same_replace {item : HistoryItem} {l : List HistoryItem}
    (h : (Recent.uris l).Nodup) (hp : Listed item l) : Recent.Same l (Recent.replace item l) := by
  obtain ⟨b, hb, hsame⟩ := hp
  have heach (c) (hc : c ∈ l) : c.Same (if c.uri = item.uri then item else c) := by
    split_ifs with huri
    · obtain rfl : c = b := List.inj_on_of_nodup_map h hc hb (huri.trans hsame.1.symm)
      exact hsame
    · exact .refl c
  rw [Recent.replace, Recent.Same, List.forall₂_map_right_iff]
  exact List.forall₂_same.2 heach

/-- Updating a file. -/
theorem does_updateFileReal (hi : mgr.files.Indexed HistoryItem.uri) (hl : mgr.loaded = true)
    (item : HistoryItem) (notify : Bool) (hmem : item.uri ∈ Recent.uris mgr.items)
    [Decidable (Listed item mgr.items)] :
    Does mgr (mgr.updateFileReal mem item notify) (Recent.replace item mgr.items)
      (if notify ∧ ¬ Listed item mgr.items then [(some item, .update)] else []) := by
  obtain ⟨link, ht⟩ := (mem_uris_iff hi).1 hmem
  have hlisted := listed_iff hi ht
  rw [updateFileReal, ensureFiles_of_loaded mem hl, ht]
  by_cases hsame : Listed item mgr.items
  · simp only [HistoryItem.equal_iff.2 (hlisted.1 hsame), hsame, Bool.not_true, Bool.false_eq_true,
      if_false, not_true_eq_false, and_false]
    exact (Does.refl hi hl).same (hsame.same_replace hi.nodup_keys)
  · have hchange : (!(mgr.files.data link).equal item) = true := by
      rw [hlisted, ← HistoryItem.equal_iff] at hsame
      simpa using hsame
    simp only [if_pos hchange, hsame, not_false_eq_true, and_true, HistoryItem.copy_eq]
    refine (Does.change mgr.allocs (hi.replace ht) hl notify (some item) .update).same ?_
    rw [hi.items_replace ht]
    exact Recent.Same.refl _

theorem updateFileReal_of_notMem (hi : mgr.files.Indexed HistoryItem.uri) (hl : mgr.loaded = true)
    {item : HistoryItem} (hmem : item.uri ∉ Recent.uris mgr.items) (notify : Bool) :
    mgr.updateFileReal mem item notify = mgr.addFileReal mem item true := by
  rw [updateFileReal, ensureFiles_of_loaded mem hl, hi.table_eq_none.2 hmem]

/-- Clearing the list. -/
theorem does_clearReal (hi : mgr.files.Indexed HistoryItem.uri) (hl : mgr.loaded = true)
    (notify : Bool) : ∃ msgs, Does mgr (mgr.clearReal mem notify) [] msgs := by
  rw [clearReal, ensureFiles_of_loaded mem hl]
  by_cases hnil : mgr.files.links = []
  · rw [if_pos hnil]
    refine ⟨_, (Does.refl hi hl).same ?_⟩
    simp [items, KeyedQueue.items, hnil]
  · rw [if_neg hnil]
    exact ⟨_, Does.change mgr.allocs
     
      ⟨List.nodup_nil, by simp⟩ hl notify none .clear⟩

end HistoryMgr

end Medit
