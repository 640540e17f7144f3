import Mathlib.Data.List.Basic
import Mathlib.Data.List.Nodup

/-!
# Orders with hidden entries

A list keeps the order of entries of which only some are shown. A place among the shown ones stands
for a place in the whole list, and the other way round.

## Main definitions

* `insertAt` — `g_slist_insert`.
* `realIndex` — the place in the whole list behind so many shown entries.
* `shownBefore` — the number of the shown entries before an entry.
* `Before` — one entry before another one.

## Main results

* `filter_insertAt` — a new entry is shown where it was put among the shown ones.
* `filter_show` — an entry that is shown again is where the list has kept it.
* `before_insertAt`, `before_erase`, `before_filter` — what keeps the order of two entries.
-/

namespace HiddenOrder

variable {α : Type*}

/-- `g_slist_insert`, which appends behind the end. -/
def insertAt (l : List α) (n : ℕ) (a : α) : List α := l.take n ++ a :: l.drop n

/-- The place in a list behind the first `n` entries that are shown. -/
def realIndex (shown : α → Bool) : List α → ℕ → ℕ
  | [], _ => 0
  | _ :: _, 0 => 0
  | b :: l, n + 1 => realIndex shown l (if shown b then n else n + 1) + 1

/-- The shown entries before an entry, if it is there. -/
def shownBefore [DecidableEq α] (shown : α → Bool) (a : α) : List α → Option ℕ
  | [] => none
  | b :: l =>
    if b = a then some 0 else (shownBefore shown a l).map (· + (shown b).toNat)

section insertAt

variable {l : List α} {n : ℕ} {a b : α}

@[simp] theorem insertAt_zero (l : List α) (a : α) : insertAt l 0 a = a :: l := rfl

@[simp] theorem insertAt_nil (n : ℕ) (a : α) : insertAt [] n a = [a] := by simp [insertAt]

@[simp] theorem insertAt_cons (l : List α) (n : ℕ) (a b : α) :
    insertAt (b :: l) (n + 1) a = b :: insertAt l n a := rfl

theorem perm_insertAt (l : List α) (n : ℕ) (a : α) : (insertAt l n a).Perm (a :: l) := by
  rw [insertAt]
  exact List.perm_middle.trans (by rw [List.take_append_drop])

@[simp] theorem mem_insertAt : b ∈ insertAt l n a ↔ b = a ∨ b ∈ l := by
  rw [(perm_insertAt l n a).mem_iff, List.mem_cons]

theorem sublist_insertAt (l : List α) (n : ℕ) (a : α) : l.Sublist (insertAt l n a) := by
  conv => lhs; rw [← List.take_append_drop n l]
  exact List.Sublist.append_left (List.sublist_cons_self _ _) _

/-- Behind the end it does not matter where. -/
theorem insertAt_min (l : List α) (n : ℕ) (a : α) :
    insertAt l (min n l.length) a = insertAt l n a := by
  rcases Nat.le_total n l.length with h | h
  · rw [Nat.min_eq_left h]
  · rw [Nat.min_eq_right h, insertAt, insertAt, List.take_length, List.drop_length,
      List.take_of_length_le h, List.drop_of_length_le h]

end insertAt

/-! ## Two numberings -/

variable {shown shown' : α → Bool} {l : List α} {a : α} {n : ℕ}

/-- A new entry is shown where it was put among the shown ones. -/
theorem filter_insertAt (ha : shown' a = true) (h : ∀ b ∈ l, shown' b = shown b) :
    (insertAt l (realIndex shown l n) a).filter shown' = insertAt (l.filter shown) n a := by
  induction l generalizing n with
  | nil => simp [realIndex, ha]
  | cons b l ih =>
    have hb := h b (by simp)
    have ih := fun n => @ih n fun c hc => h c (by simp [hc])
    cases n with
    | zero =>
      have heq : (b :: l).filter shown' = (b :: l).filter shown :=
        List.filter_congr fun c hc => h c hc
      rw [realIndex, insertAt_zero, insertAt_zero, List.filter_cons_of_pos ha, heq]
    | succ n =>
      rw [realIndex, insertAt_cons, List.filter_cons, List.filter_cons, hb, ih]
      cases shown b <;> simp

variable [DecidableEq α]

theorem shownBefore_isSome (shown : α → Bool) : (shownBefore shown a l).isSome ↔ a ∈ l := by
  induction l with
  | nil => simp [shownBefore]
  | cons b l ih =>
    rw [shownBefore]
    by_cases h : b = a
    · simp [h]
    · rw [if_neg h, Option.isSome_map, ih, List.mem_cons, or_iff_right (Ne.symm h)]

/-- An entry that is shown again is where the list has kept it. -/
theorem filter_show (hl : l.Nodup) (hn : shownBefore shown a l = some n) (ha : shown a = false)
    (ha' : shown' a = true) (h : ∀ b ∈ l, b ≠ a → shown' b = shown b) :
    l.filter shown' = insertAt (l.filter shown) n a := by
  induction l generalizing n with
  | nil => simp [shownBefore] at hn
  | cons b l ih =>
    obtain ⟨hb, hl⟩ := List.nodup_cons.1 hl
    rw [shownBefore] at hn
    by_cases heq : b = a
    · subst heq
      obtain rfl : 0 = n := by simpa using hn
      have hrest : l.filter shown' = l.filter shown :=
        List.filter_congr fun c hc => h c (by simp [hc]) (by rintro rfl; exact hb hc)
      rw [List.filter_cons_of_pos ha', List.filter_cons_of_neg (by simp [ha]), hrest, insertAt_zero]
    · rw [if_neg heq] at hn
      obtain ⟨m, hm, rfl⟩ := Option.map_eq_some_iff.1 hn
      have ih := ih hl hm fun c hc => h c (by simp [hc])
      rw [List.filter_cons, List.filter_cons, h b (by simp) heq, ih]
      cases shown b <;> simp

/-! ## The order of two entries -/

/-- `a` is before `b`. -/
def Before (l : List α) (a b : α) : Prop := [a, b].Sublist l

section Before

variable {b x : α} {p : α → Bool}

omit [DecidableEq α] in
theorem before_insertAt (h : Before l a b) (n : ℕ) (x : α) : Before (insertAt l n x) a b :=
  h.trans (sublist_insertAt l n x)

omit [DecidableEq α] in
theorem before_erase [BEq α] [LawfulBEq α] (h : Before l a b) (ha : x ≠ a) (hb : x ≠ b) : Before (l.erase x) a b := by
  have hpair : [a, b].erase x = [a, b] := by
    rw [List.erase_of_not_mem]
    simp [ha, hb]
  have herase := List.Sublist.erase x h
  rwa [hpair] at herase

omit [DecidableEq α] in
theorem before_filter : Before (l.filter p) a b ↔ Before l a b ∧ p a = true ∧ p b = true := by
  constructor
  · intro h
    have hmem := h.subset
    exact ⟨h.trans List.filter_sublist, List.of_mem_filter (hmem (by simp)),
      List.of_mem_filter (hmem (by simp))⟩
  · rintro ⟨h, ha, hb⟩
    have := h.filter p
    rwa [List.filter_cons_of_pos ha, List.filter_cons_of_pos hb] at this

omit [DecidableEq α] in
/-- Of two entries one is before the other one. -/
theorem before_total (ha : a ∈ l) (hb : b ∈ l) (hne : a ≠ b) : Before l a b ∨ Before l b a := by
  induction l with
  | nil => simp at ha
  | cons c l ih =>
    rcases List.mem_cons.1 ha with rfl | hal
    · have hbl := (List.mem_cons.1 hb).resolve_left (Ne.symm hne)
      exact .inl (List.Sublist.cons_cons _ (List.singleton_sublist.2 hbl))
    · rcases List.mem_cons.1 hb with rfl | hbl
      · exact .inr (List.Sublist.cons_cons _ (List.singleton_sublist.2 hal))
      · exact (ih hal hbl).imp (List.Sublist.cons c) (List.Sublist.cons c)

omit [DecidableEq α] in
theorem before_asymm (hl : l.Nodup) (h : Before l a b) : ¬ Before l b a := by
  intro h'
  induction l with
  | nil => simp [Before] at h
  | cons c l ih =>
    obtain ⟨hc, hl⟩ := List.nodup_cons.1 hl
    cases h with
    | cons _ h =>
      cases h' with
      | cons _ h' => exact ih hl h h'
      | cons_cons _ h' => exact hc (h.subset (by simp))
    | cons_cons _ h =>
      cases h' with
      | cons _ h' => exact hc (h'.subset (by simp))
      | cons_cons _ h' => exact hc (h.subset (by simp))

end Before

end HiddenOrder
