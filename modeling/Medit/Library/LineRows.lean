import Mathlib.Data.List.Sort

/-!
# Items in rows

Lists of rows where no item is there twice, such as the marks on the lines of a text, and lists of
items sorted by the row they are in.

## Main definitions

* `rowOf` — the row an item is in.
* `Thin` — no row has several items.
* `splitRepeats` — the loop over a sorted list that keeps the first item of each row.

## Main results

* `Thin.eq_flatten` — a list sorted by rows with all the items of thin rows is their items in order.
* `splitRepeats_spec` — what the loop keeps.
-/

namespace LineRows

/-! ## Lists sorted by a key -/

section Key

variable {α : Type*} {key : α → ℕ} {a b : α} {l l' : List α}

/-- The keys of the items grow. -/
def Increasing (key : α → ℕ) (l : List α) : Prop := l.Pairwise (key · < key ·)

theorem Increasing.congr {k : α → ℕ} (h : Increasing key l) (heq : ∀ m ∈ l, k m = key m) :
    Increasing k l :=
  h.imp_of_mem fun ha hb hlt => by rwa [heq _ ha, heq _ hb]

theorem Increasing.eq_of_key (h : Increasing key l) (ha : a ∈ l) (hb : b ∈ l)
    (heq : key a = key b) : a = b :=
  List.inj_on_of_nodup_map (List.pairwise_map.2 (h.imp fun hlt => Nat.ne_of_lt hlt)) ha hb heq

theorem Increasing.eq_of_mem_iff (h : Increasing key l) (h' : Increasing key l')
    (hmem : ∀ m, m ∈ l ↔ m ∈ l') : l = l' := by
  have : Std.Irrefl fun a b => key a < key b := ⟨fun a => Nat.lt_irrefl _⟩
  have : Std.Antisymm fun a b => key a < key b := ⟨fun a b hab hba => absurd hab (Nat.lt_asymm hba)⟩
  exact List.Pairwise.eq_of_mem_iff h h' hmem

theorem Increasing.orderedInsert (h : Increasing key l) (hne : ∀ m ∈ l, key m ≠ key a) :
    Increasing key (l.orderedInsert (key · ≤ key ·) a) := by
  induction l with
  | nil => simp [Increasing]
  | cons b l ih =>
    obtain ⟨hb, hl⟩ := List.pairwise_cons.1 h
    have hab := hne b (by simp)
    rw [List.orderedInsert_cons]
    split_ifs with hle
    · refine List.pairwise_cons.2 ⟨fun m hm => ?_, h⟩
      obtain rfl | hm := List.mem_cons.1 hm
      · omega
      · have := hb m hm
        omega
    · refine List.pairwise_cons.2 ⟨fun m hm => ?_, ih hl fun m hm => hne m (by simp [hm])⟩
      obtain rfl | hm := (List.mem_orderedInsert _).1 hm
      · omega
      · exact hb m hm

theorem pairwise_insertionSort (key : α → ℕ) (l : List α) :
    (l.insertionSort (key · ≤ key ·)).Pairwise (key · ≤ key ·) := by
  have : Std.Total fun a b => key a ≤ key b := ⟨fun a b => Nat.le_total _ _⟩
  have : IsTrans α fun a b => key a ≤ key b := ⟨fun a b c => Nat.le_trans⟩
  exact List.pairwise_insertionSort _ l

/-- A loop over a sorted list that keeps the first of the items with one key: those it keeps, the
last one first, and the others. -/
def splitRepeats (key : α → ℕ) (kept repeats : List α) : List α → List α × List α
  | [] => (kept, repeats)
  | m :: l =>
    if kept.head?.any (key · = key m) then splitRepeats key kept (m :: repeats) l
    else splitRepeats key (m :: kept) repeats l

/-- What the loop keeps: one item for each key. -/
structure KeepsFirst (key : α → ℕ) (l kept repeats : List α) : Prop where
  perm : (kept ++ repeats).Perm l
  increasing : Increasing key kept
  has : ∀ m ∈ l, ∃ a ∈ kept, key a = key m

theorem splitRepeats_loop (kept repeats : List α) (l' : List α) (hl : l.Pairwise (key · ≤ key ·))
    (hle : ∀ a ∈ kept, ∀ m ∈ l, key a ≤ key m)
    (h : KeepsFirst key l' kept.reverse repeats) :
    KeepsFirst key (l' ++ l) (splitRepeats key kept repeats l).1.reverse
      (splitRepeats key kept repeats l).2 := by
  induction l generalizing kept repeats l' with
  | nil => simpa [splitRepeats] using h
  | cons m l ih =>
    obtain ⟨hm, hl⟩ := List.pairwise_cons.1 hl
    have hassoc : l' ++ m :: l = (l' ++ [m]) ++ l := by simp
    rw [splitRepeats, hassoc]
    split_ifs with hrep
    · obtain ⟨b, hb, hkey⟩ : ∃ b ∈ kept, key b = key m := by
        cases kept with
        | nil => simp at hrep
        | cons b kept => exact ⟨b, by simp, by simpa using hrep⟩
      refine ih _ _ _ hl (fun a ha n hn => hle a ha n (by simp [hn])) ⟨?_, h.increasing, ?_⟩
      · exact (List.perm_middle.trans (List.Perm.cons m h.perm)).trans
          (List.perm_append_singleton m l').symm
      · intro n hn
        obtain hn | rfl : n ∈ l' ∨ n = m := by simpa using hn
        · exact h.has n hn
        · exact ⟨b, by simpa using hb, hkey⟩
    · have hlt (a : α) (ha : a ∈ kept) : key a < key m := by
        cases kept with
        | nil => simp at ha
        | cons b kept =>
          have hbm := hle b (by simp) m (by simp)
          have hne : key b ≠ key m := by simpa using hrep
          obtain rfl | ha := List.mem_cons.1 ha
          · omega
          · have hinc := h.increasing
            rw [List.reverse_cons] at hinc
            have := (List.pairwise_append.1 hinc).2.2 a (by simpa using ha) b (by simp)
            omega
      refine ih _ _ _ hl (fun a ha n hn => ?_) ⟨?_, ?_, ?_⟩
      · obtain rfl | ha := List.mem_cons.1 ha
        · exact hm n hn
        · exact hle a ha n (by simp [hn])
      · rw [List.reverse_cons, List.append_assoc, List.singleton_append]
        exact (List.perm_middle.trans (List.Perm.cons m h.perm)).trans
          (List.perm_append_singleton m l').symm
      · rw [List.reverse_cons]
        exact List.pairwise_append.2 ⟨h.increasing, by simp, fun a ha b hb => by
          obtain rfl : b = m := by simpa using hb
          exact hlt a (by simpa using ha)⟩
      · intro n hn
        obtain hn | rfl : n ∈ l' ∨ n = m := by simpa using hn
        · obtain ⟨a, ha, hkey⟩ := h.has n hn
          exact ⟨a, by simp [List.mem_reverse.1 ha], hkey⟩
        · exact ⟨n, by simp, rfl⟩

/-- The loop over a sorted list. -/
theorem splitRepeats_spec (hl : l.Pairwise (key · ≤ key ·)) :
    KeepsFirst key l (splitRepeats key [] [] l).1.reverse (splitRepeats key [] [] l).2 :=
  splitRepeats_loop [] [] [] hl (by simp) ⟨by simp, by simp [Increasing], by simp⟩

end Key

/-! ## Rows -/

variable {α : Type*} [DecidableEq α] {rows : List (List α)} {r l : List α} {m : α}

/-- The row an item is in. -/
def rowOf (rows : List (List α)) (m : α) : ℕ := rows.findIdx (m ∈ ·)

theorem rowOf_cons (r : List α) (rows : List (List α)) (m : α) :
    rowOf (r :: rows) m = if m ∈ r then 0 else rowOf rows m + 1 := by
  by_cases h : m ∈ r <;> simp [rowOf, List.findIdx_cons, h]

/-- No row has several items. -/
def Thin (rows : List (List α)) : Prop := ∀ r ∈ rows, r.length ≤ 1

theorem mem_row_iff (hnd : rows.flatten.Nodup) (i : ℕ) :
    m ∈ rows.getD i [] ↔ m ∈ rows.flatten ∧ rowOf rows m = i := by
  induction rows generalizing i with
  | nil => simp
  | cons r rows ih =>
    rw [List.flatten_cons] at hnd
    obtain ⟨-, hrows, hdis⟩ := List.nodup_append'.1 hnd
    rw [List.flatten_cons, List.mem_append, rowOf_cons]
    cases i with
    | zero => by_cases hm : m ∈ r <;> simp [hm]
    | succ i =>
      rw [List.getD_cons_succ, ih hrows]
      by_cases hm : m ∈ r
      · simp [hm, List.disjoint_left.1 hdis hm]
      · simp [hm]

/-- The items of thin rows are sorted by their rows. -/
theorem Thin.increasing (h : Thin rows) (hnd : rows.flatten.Nodup) :
    Increasing (rowOf rows) rows.flatten := by
  induction rows with
  | nil => simp [Increasing]
  | cons r rows ih =>
    rw [List.flatten_cons] at hnd ⊢
    obtain ⟨-, hrows, hdis⟩ := List.nodup_append'.1 hnd
    have hrest := ih (fun r' hr' => h r' (by simp [hr'])) hrows
    have hout (m : α) (hm : m ∈ rows.flatten) : rowOf (r :: rows) m = rowOf rows m + 1 := by
      rw [rowOf_cons, if_neg fun hr => List.disjoint_left.1 hdis hr hm]
    refine List.pairwise_append.2 ⟨?_, ?_, fun a ha b hb => ?_⟩
    · have hlen := h r (by simp)
      match r with
      | [] => simp
      | [_] => simp
      | _ :: _ :: _ => simp at hlen
    · exact hrest.imp_of_mem fun ha hb hlt => by
        rw [hout _ ha, hout _ hb]
        omega
    · rw [hout b hb, rowOf_cons, if_pos ha]
      omega

/-- Rows whose items are those of a list sorted by them are thin. -/
theorem thin_of_increasing (hnd : rows.flatten.Nodup) (hl : Increasing (rowOf rows) l)
    (hmem : ∀ m ∈ rows.flatten, m ∈ l) : Thin rows := by
  intro r hr
  obtain ⟨i, hi⟩ := List.mem_iff_getElem?.1 hr
  have hrow (m : α) (hm : m ∈ r) : m ∈ rows.flatten ∧ rowOf rows m = i :=
    (mem_row_iff hnd i).1 (by simpa [List.getD, hi] using hm)
  match r with
  | [] => simp
  | [_] => simp
  | a :: b :: r =>
    have hab : a = b := hl.eq_of_key (hmem a (hrow a (by simp)).1) (hmem b (hrow b (by simp)).1)
      ((hrow a (by simp)).2.trans (hrow b (by simp)).2.symm)
    have := (List.sublist_flatten_of_mem hr).nodup hnd
    simp [hab] at this

/-- A list sorted by rows with all the items of thin rows is their items in order. -/
theorem Thin.eq_flatten (h : Thin rows) (hnd : rows.flatten.Nodup)
    (hl : Increasing (rowOf rows) l) (hmem : ∀ m, m ∈ l ↔ m ∈ rows.flatten) : l = rows.flatten :=
  hl.eq_of_mem_iff (h.increasing hnd) hmem

/-! ## Rows cut out -/

omit [DecidableEq α] in
theorem flatten_drop (rows : List (List α)) (i : ℕ) :
    (rows.drop i).flatten = rows.getD i [] ++ (rows.drop (i + 1)).flatten := by
  induction rows generalizing i with
  | nil => simp
  | cons r rows ih =>
    cases i with
    | zero => simp
    | succ i => simpa using ih i

omit [DecidableEq α] in
theorem flatten_take_succ (rows : List (List α)) (i : ℕ) :
    (rows.take (i + 1)).flatten = (rows.take i).flatten ++ rows.getD i [] := by
  rw [List.take_add_one, List.flatten_append, List.getD]
  cases rows[i]? <;> simp

omit [DecidableEq α] in
/-- The items before, in and behind some rows. -/
theorem flatten_split (rows : List (List α)) {i j : ℕ} (h : i ≤ j) :
    rows.flatten = (rows.take i).flatten ++
      (((rows.drop i).take (j - i)).flatten ++ (rows.drop j).flatten) := by
  have hdrop : rows.drop j = (rows.drop i).drop (j - i) := by
    rw [List.drop_drop]
    congr 1
    omega
  rw [hdrop, ← List.flatten_append, List.take_append_drop, ← List.flatten_append,
    List.take_append_drop]

omit [DecidableEq α] in
theorem sublist_flatten_getD (rows : List (List α)) (i : ℕ) :
    (rows.getD i []).Sublist rows.flatten := by
  rw [List.getD]
  cases hi : rows[i]? with
  | none => simp
  | some r => exact List.sublist_flatten_of_mem (List.mem_of_getElem? hi)

omit [DecidableEq α] in
theorem Thin.getD (h : Thin rows) (i : ℕ) : (rows.getD i []).length ≤ 1 := by
  rw [List.getD]
  cases hi : rows[i]? with
  | none => simp
  | some r => exact h r (List.mem_of_getElem? hi)

/-! ## Items taken out and put in -/

/-- The rows without the items that fail `p`. -/
def keep (p : α → Bool) (rows : List (List α)) : List (List α) := rows.map (List.filter p)

omit [DecidableEq α] in
theorem flatten_keep (p : α → Bool) : (keep p rows).flatten = rows.flatten.filter p :=
  List.filter_flatten.symm

omit [DecidableEq α] in
@[simp] theorem keep_true : keep (fun _ => true) rows = rows := by
  have hid : List.filter (fun _ : α => true) = id := by
    funext r
    exact List.filter_eq_self.2 fun _ _ => rfl
  rw [keep, hid, List.map_id]

omit [DecidableEq α] in
theorem keep_keep (p q : α → Bool) : keep p (keep q rows) = keep (fun m => q m && p m) rows := by
  simp only [keep, List.map_map]
  refine List.map_congr_left fun r _ => ?_
  simp only [Function.comp_apply, List.filter_filter]
  exact List.filter_congr fun m _ => Bool.and_comm ..

theorem rowOf_keep {p : α → Bool} (hm : p m) : rowOf (keep p rows) m = rowOf rows m := by
  rw [rowOf, keep, List.findIdx_map, rowOf]
  congr 1
  funext r
  simp [hm]

omit [DecidableEq α] in
theorem getD_keep (p : α → Bool) (i : ℕ) : (keep p rows).getD i [] = (rows.getD i []).filter p := by
  rw [keep, List.getD, List.getD, List.getElem?_map]
  cases rows[i]? <;> rfl

omit [DecidableEq α] in
theorem Thin.keep (h : Thin rows) (p : α → Bool) : Thin (keep p rows) := by
  intro r hr
  obtain ⟨r', hr', rfl⟩ := List.mem_map.1 hr
  exact (List.length_filter_le p r').trans (h r' hr')

/-- The rows with another item at the end of one. -/
def put (rows : List (List α)) (i : ℕ) (m : α) : List (List α) := rows.modify i (· ++ [m])

omit [DecidableEq α] in
theorem flatten_put {i : ℕ} (hi : i < rows.length) :
    (put rows i m).flatten.Perm (m :: rows.flatten) := by
  induction rows generalizing i with
  | nil => simp at hi
  | cons r rows ih =>
    cases i with
    | zero =>
      simp only [put, List.modify_zero_cons, List.flatten_cons, List.append_assoc,
        List.singleton_append]
      exact List.perm_middle
    | succ i =>
      simp only [put, List.modify_succ_cons, List.flatten_cons]
      exact ((ih (by simpa using hi)).append_left r).trans List.perm_middle

theorem rowOf_put {i : ℕ} (hi : i < rows.length) (hm : m ∉ rows.flatten) (a : α) :
    rowOf (put rows i m) a = if a = m then i else rowOf rows a := by
  induction rows generalizing i with
  | nil => simp at hi
  | cons r rows ih =>
    obtain ⟨hr, hrows⟩ : m ∉ r ∧ m ∉ rows.flatten := by simpa [not_or] using hm
    cases i with
    | zero =>
      rw [put, List.modify_zero_cons, rowOf_cons, rowOf_cons]
      by_cases ham : a = m <;> simp [ham]
    | succ i =>
      rw [put, List.modify_succ_cons, rowOf_cons, rowOf_cons, ← put,
        ih (by simpa using hi) hrows]
      by_cases ham : a = m <;> simp [ham, hr]

omit [DecidableEq α] in
theorem getD_put_ne_nil {i : ℕ} (hi : i < rows.length) (m : α) : (put rows i m).getD i [] ≠ [] := by
  rw [put, List.getD, List.getElem?_modify, List.getElem?_eq_getElem hi]
  simp

end LineRows
