import Mathlib.Data.List.Nodup

/-!
# Recent items

A list of items, newest first, without what has come again since, and cut to a length.

## Main definitions

* `RecentItems.recent` — each item once, where it came last.
* `RecentItems.touch` — an item comes to the front of a list that is kept short.

## Main results

* `RecentItems.touch_take_recent` — the short list has the most recent items.
-/

namespace RecentItems

variable {α : Type*} [DecidableEq α]

/-- The items of a list, newest first, each once. -/
def recent : List α → List α
  | [] => []
  | a :: l => a :: (recent l).erase a

/-- An item comes to the front of a list that keeps at most `n`. -/
def touch (n : ℕ) (a : α) (l : List α) : List α := (a :: l.erase a).take n

@[simp] theorem recent_nil : recent ([] : List α) = [] := rfl

theorem nodup_recent (l : List α) : (recent l).Nodup := by
  induction l with
  | nil => exact List.nodup_nil
  | cons a l ih => exact List.nodup_cons.2 ⟨ih.not_mem_erase, ih.erase a⟩

theorem mem_of_mem_recent {a : α} {l : List α} (h : a ∈ recent l) : a ∈ l := by
  induction l with
  | nil => exact h
  | cons b l ih =>
    rcases List.mem_cons.1 h with rfl | h
    · exact List.mem_cons_self
    · exact List.mem_cons_of_mem b (ih (List.mem_of_mem_erase h))

theorem recent_of_nodup {l : List α} (h : l.Nodup) : recent l = l := by
  induction l with
  | nil => rfl
  | cons a l ih =>
    obtain ⟨ha, h⟩ := List.nodup_cons.1 h
    rw [recent, ih h, List.erase_of_not_mem ha]

/-- Cutting a list first does not matter where even less is kept. -/
theorem take_erase_take {m n : ℕ} (h : m < n) (a : α) (l : List α) :
    ((l.take n).erase a).take m = (l.erase a).take m := by
  induction l generalizing m n with
  | nil => simp
  | cons b l ih =>
    obtain ⟨n, rfl⟩ := Nat.exists_eq_succ_of_ne_zero (Nat.ne_zero_of_lt h)
    rw [List.take_succ_cons]
    by_cases hab : b = a
    · subst hab
      rw [List.erase_cons_head, List.erase_cons_head, List.take_take, Nat.min_eq_left (by omega)]
    · rw [List.erase_cons_tail (by simpa using hab), List.erase_cons_tail (by simpa using hab)]
      cases m with
      | zero => rfl
      | succ m => rw [List.take_succ_cons, List.take_succ_cons, ih (by omega)]

/-- A list of the most recent items still is one when an item comes. -/
theorem touch_take_recent (n : ℕ) (a : α) (l : List α) :
    touch n a ((recent l).take n) = (recent (a :: l)).take n := by
  cases n with
  | zero => rfl
  | succ n =>
    rw [touch, recent, List.take_succ_cons, List.take_succ_cons, take_erase_take n.lt_succ_self]

/-- What is cut off does not come back when items come. -/
theorem take_recent_append (n : ℕ) (l l' : List α) :
    (recent (l ++ (recent l').take n)).take n = (recent (l ++ l')).take n := by
  induction l with
  | nil =>
    rw [List.nil_append, List.nil_append, recent_of_nodup (nodup_recent l').take, List.take_take,
      Nat.min_self]
  | cons a l ih =>
    rw [List.cons_append, List.cons_append, ← touch_take_recent, ih, touch_take_recent]

theorem nodup_touch {n : ℕ} {a : α} {l : List α} (h : l.Nodup) : (touch n a l).Nodup :=
  (List.nodup_cons.2 ⟨h.not_mem_erase, h.erase a⟩).take

theorem mem_touch {n : ℕ} {a b : α} {l : List α} (h : b ∈ touch n a l) : b = a ∨ b ∈ l := by
  rcases List.mem_cons.1 (List.mem_of_mem_take h) with rfl | hb
  · exact .inl rfl
  · exact .inr (List.mem_of_mem_erase hb)

theorem length_touch (n : ℕ) (a : α) (l : List α) : (touch n a l).length ≤ n :=
  List.length_take_le n _

/-- The item at the front stays there, if the list is short enough. -/
theorem touch_head {n : ℕ} {a : α} {l : List α} (h : (a :: l).length ≤ n) :
    touch n a (a :: l) = a :: l := by
  rw [touch, List.erase_cons_head, List.take_of_length_le h]

/-- A new item. -/
theorem touch_eq_take (n : ℕ) {a : α} {l : List α} (ha : a ∉ l) :
    touch n a l = (a :: l).take n := by
  rw [touch, List.erase_of_not_mem ha]

/-- A new item in a list with room. -/
theorem touch_of_not_mem {n : ℕ} {a : α} {l : List α} (ha : a ∉ l) (h : l.length < n) :
    touch n a l = a :: l := by
  rw [touch_eq_take n ha, List.take_of_length_le h]

/-- An item of the list. -/
theorem touch_append_cons {n : ℕ} {a : α} {l l' : List α} (ha : a ∉ l)
    (h : (l ++ a :: l').length ≤ n) : touch n a (l ++ a :: l') = a :: (l ++ l') := by
  rw [touch, List.erase_append_right _ ha, List.erase_cons_head, List.take_of_length_le]
  simp only [List.length_append, List.length_cons] at h ⊢
  omega

end RecentItems
