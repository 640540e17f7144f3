import Mathlib.Algebra.Order.BigOperators.Group.List
import Mathlib.Algebra.Order.Ring.Nat
import Mathlib.Data.List.Nodup
import Mathlib.Logic.Function.Basic

/-!
# Queues with a table

A queue of links, each with an item, and a table from the keys of the items to their links. A link
is an address: one that has been freed may come again.

## Main definitions

* `KeyedQueue` — the links from head to tail, what they hold, and the table.
* `KeyedQueue.Indexed` — the table has each item's key, at the link of the item, and nothing else.
* `KeyedQueue.items` — the items from head to tail.
* `KeyedQueue.Allocator` — where links come from.

## Main results

* `Indexed.pushHead`, `Indexed.pushTail`, `Indexed.moveToHead`, `Indexed.replace`,
  `Indexed.remove` — the operations keep this, with what they do to the items.
-/

open Function

/-- A queue of links and a table of them. -/
structure KeyedQueue (κ α : Type*) where
  links : List ℕ
  data : ℕ → α
  table : κ → Option ℕ

namespace KeyedQueue

variable {κ α : Type*} [DecidableEq κ]

/-! ## Operations -/

/-- `g_queue_push_head`, with the new link. -/
def pushHead (q : KeyedQueue κ α) (l : ℕ) (a : α) : KeyedQueue κ α :=
  { q with links := l :: q.links, data := update q.data l a }

/-- `g_queue_push_tail`, with the new link. -/
def pushTail (q : KeyedQueue κ α) (l : ℕ) (a : α) : KeyedQueue κ α :=
  { q with links := q.links ++ [l], data := update q.data l a }

/-- `g_queue_push_head_link` -/
def pushHeadLink (q : KeyedQueue κ α) (l : ℕ) : KeyedQueue κ α := { q with links := l :: q.links }

/-- `g_queue_unlink`, or `g_queue_delete_link` -/
def unlink (q : KeyedQueue κ α) (l : ℕ) : KeyedQueue κ α := { q with links := q.links.erase l }

/-- An assignment to the data of a link. -/
def setData (q : KeyedQueue κ α) (l : ℕ) (a : α) : KeyedQueue κ α :=
  { q with data := update q.data l a }

/-- `g_hash_table_insert` -/
def insert (q : KeyedQueue κ α) (k : κ) (l : ℕ) : KeyedQueue κ α :=
  { q with table := update q.table k (some l) }

/-- `g_hash_table_remove` -/
def remove (q : KeyedQueue κ α) (k : κ) : KeyedQueue κ α :=
  { q with table := update q.table k none }

def empty [Inhabited α] : KeyedQueue κ α := ⟨[], fun _ => default, fun _ => none⟩

/-- The items from head to tail. -/
def items (q : KeyedQueue κ α) : List α := q.links.map q.data

/-- Where memory comes from: the address of the `n`-th link may be any that is not in use. -/
structure Allocator where
  get : ℕ → List ℕ → ℕ
  fresh : ∀ n used, get n used ∉ used

/-- Links that are higher than all others. -/
def Allocator.above : Allocator where
  get _ used := used.sum + 1
  fresh _ used h := by
    have hle := List.le_sum_of_mem h
    omega

/-! ## The table -/

variable {key : α → κ} {q : KeyedQueue κ α} {k : κ} {l : ℕ} {a : α}

/-- The table has each item's key, at the link of the item, and nothing else. -/
structure Indexed (key : α → κ) (q : KeyedQueue κ α) : Prop where
  nodup : q.links.Nodup
  table_iff : ∀ k l, q.table k = some l ↔ l ∈ q.links ∧ key (q.data l) = k

namespace Indexed

omit [DecidableEq κ]

theorem key_inj (h : q.Indexed key) {l l' : ℕ} (hl : l ∈ q.links) (hl' : l' ∈ q.links)
    (hk : key (q.data l) = key (q.data l')) : l = l' := by
  have ht := (h.table_iff _ l).2 ⟨hl, hk⟩
  have ht' := (h.table_iff _ l').2 ⟨hl', rfl⟩
  exact Option.some.inj (ht.symm.trans ht')

/-- No key occurs twice. -/
theorem nodup_keys (h : q.Indexed key) : (q.items.map key).Nodup := by
  rw [items, List.map_map]
  exact h.nodup.map_on fun l hl l' hl' hk => h.key_inj hl hl' hk

theorem table_eq_none (h : q.Indexed key) : q.table k = none ↔ k ∉ q.items.map key := by
  rw [Option.eq_none_iff_forall_ne_some]
  constructor
  · intro hnone hk
    obtain ⟨a, ha, rfl⟩ := List.mem_map.1 hk
    obtain ⟨l, hl, rfl⟩ := List.mem_map.1 ha
    exact hnone l ((h.table_iff _ _).2 ⟨hl, rfl⟩)
  · intro hk l hl
    obtain ⟨hmem, rfl⟩ := (h.table_iff _ _).1 hl
    exact hk (List.mem_map_of_mem (List.mem_map_of_mem hmem))

theorem exists_of_mem (h : q.Indexed key) (hk : k ∈ q.items.map key) : ∃ l, q.table k = some l := by
  cases hq : q.table k with
  | none => exact absurd hk (h.table_eq_none.1 hq)
  | some l => exact ⟨l, rfl⟩

end Indexed

/-- In a list without a key twice, an item is the only one of its key. -/
theorem filter_key_eq {items : List α} (h : (items.map key).Nodup) (ha : a ∈ items) :
    items.filter (key · = key a) = [a] := by
  induction items with
  | nil => simp at ha
  | cons b items ih =>
    obtain ⟨hnot, hnodup⟩ := List.nodup_cons.1 h
    rcases List.mem_cons.1 ha with rfl | ha
    · have hnil : items.filter (key · = key a) = [] := by
        rw [List.filter_eq_nil_iff]
        intro b hb heq
        exact hnot (List.mem_map.2 ⟨b, hb, by simpa using heq⟩)
      simp [hnil]
    · have hne : key b ≠ key a := fun heq => hnot (heq ▸ List.mem_map_of_mem ha)
      simp [hne, ih hnodup ha]

/-! ## What the operations keep -/

omit [DecidableEq κ] in
theorem map_update_of_notMem {links : List ℕ} {f : ℕ → α} (hl : l ∉ links) :
    links.map (update f l a) = links.map f := by
  refine List.map_congr_left fun x hx => update_of_ne ?_ ..
  rintro rfl
  exact hl hx

namespace Indexed

/-- A new item at the head. -/
theorem pushHead (h : q.Indexed key) (hl : l ∉ q.links) (hk : q.table (key a) = none) :
    ((q.pushHead l a).insert (key a) l).Indexed key := by
  have hkeys := h.table_eq_none.1 hk
  constructor
  · exact List.nodup_cons.2 ⟨hl, h.nodup⟩
  · intro k l'
    have hiff := h.table_iff k l'
    simp only [KeyedQueue.insert, KeyedQueue.pushHead, update_apply, List.mem_cons]
    grind

theorem items_pushHead (hl : l ∉ q.links) :
    ((q.pushHead l a).insert k l).items = a :: q.items := by
  simp only [items, KeyedQueue.insert, KeyedQueue.pushHead, List.map_cons, update_self,
    map_update_of_notMem hl]

/-- A new item at the tail. -/
theorem pushTail (h : q.Indexed key) (hl : l ∉ q.links) (hk : q.table (key a) = none) :
    ((q.pushTail l a).insert (key a) l).Indexed key := by
  constructor
  · exact List.nodup_append.2 ⟨h.nodup, by simp, by grind⟩
  · intro k l'
    have hiff := h.table_iff k l'
    simp only [KeyedQueue.insert, KeyedQueue.pushTail, update_apply, List.mem_append,
      List.mem_singleton]
    grind

theorem items_pushTail (hl : l ∉ q.links) :
    ((q.pushTail l a).insert k l).items = q.items ++ [a] := by
  simp only [items, KeyedQueue.insert, KeyedQueue.pushTail, List.map_append, List.map_cons,
    List.map_nil, update_self, map_update_of_notMem hl]

omit [DecidableEq κ] in
/-- An item goes to the head, with what it holds replaced. -/
theorem moveToHead (h : q.Indexed key) (hk : q.table (key a) = some l) :
    (((q.unlink l).pushHeadLink l).setData l a).Indexed key := by
  obtain ⟨hl, hkey⟩ := (h.table_iff _ _).1 hk
  have hnodup := h.nodup
  constructor
  · exact List.nodup_cons.2 ⟨hnodup.not_mem_erase, hnodup.erase l⟩
  · intro k l'
    have hiff := h.table_iff k l'
    simp only [setData, pushHeadLink, unlink, update_apply, List.mem_cons, hnodup.mem_erase_iff]
    grind

omit [DecidableEq κ] in
/-- Another item with the same key. -/
theorem replace (h : q.Indexed key) (hk : q.table (key a) = some l) :
    (q.setData l a).Indexed key := by
  obtain ⟨hl, hkey⟩ := (h.table_iff _ _).1 hk
  constructor
  · exact h.nodup
  · intro k l'
    have hiff := h.table_iff k l'
    simp only [setData, update_apply]
    grind

/-- An item is taken out. -/
theorem remove (h : q.Indexed key) (hk : q.table k = some l) :
    ((q.remove k).unlink l).Indexed key := by
  obtain ⟨hl, hkey⟩ := (h.table_iff _ _).1 hk
  have hnodup := h.nodup
  constructor
  · exact hnodup.erase l
  · intro k' l'
    have hiff := h.table_iff k' l'
    have hinj : l' ∈ q.links → key (q.data l') = k → l' = l := fun hl' hk' =>
      h.key_inj hl' hl (hk'.trans hkey.symm)
    simp only [unlink, KeyedQueue.remove, update_apply, hnodup.mem_erase_iff]
    grind

/-- The links other than that of a key. -/
theorem map_erase (h : q.Indexed key) (hk : q.table k = some l) :
    (q.links.erase l).map q.data = q.items.filter (key · ≠ k) := by
  obtain ⟨hl, hkey⟩ := (h.table_iff _ _).1 hk
  rw [h.nodup.erase_eq_filter, items, List.filter_map]
  congr 1
  refine List.filter_congr fun l' hl' => ?_
  have hinj : key (q.data l') = k → l' = l := fun hk' => h.key_inj hl' hl (hk'.trans hkey.symm)
  simp only [bne, Function.comp]
  grind

theorem items_moveToHead (h : q.Indexed key) (hk : q.table k = some l) :
    (((q.unlink l).pushHeadLink l).setData l a).items = a :: q.items.filter (key · ≠ k) := by
  have hl : l ∉ q.links.erase l := h.nodup.not_mem_erase
  rw [← h.map_erase hk]
  simp only [items, setData, pushHeadLink, unlink, List.map_cons, update_self,
    map_update_of_notMem hl]

theorem items_replace (h : q.Indexed key) (hk : q.table k = some l) :
    (q.setData l a).items = q.items.map fun b => if key b = k then a else b := by
  obtain ⟨hl, hkey⟩ := (h.table_iff _ _).1 hk
  rw [items, items, List.map_map]
  refine List.map_congr_left fun l' hl' => ?_
  have hinj : key (q.data l') = k → l' = l := fun hk' => h.key_inj hl' hl (hk'.trans hkey.symm)
  simp only [setData, update_apply, Function.comp]
  grind

theorem items_remove (h : q.Indexed key) (hk : q.table k = some l) :
    ((q.remove k).unlink l).items = q.items.filter (key · ≠ k) := by
  rw [← h.map_erase hk]
  rfl

omit [DecidableEq κ] in
theorem empty [Inhabited α] : (empty : KeyedQueue κ α).Indexed key :=
  ⟨List.nodup_nil, fun _ _ => by simp [KeyedQueue.empty]⟩

end Indexed

end KeyedQueue
