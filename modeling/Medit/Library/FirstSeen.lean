import Mathlib.Data.List.Dedup
import Mathlib.Data.List.Induction
import Mathlib.Data.List.Perm.Basic

/-!
# Keys in the order in which they are seen

The elements of a list in groups by a key that an element may have, with the groups in the order of
their first elements.

## Main definitions

* `FirstSeen.keys` — the keys of a list.

## Main results

* `FirstSeen.flatMap_filter_perm` — the groups together have every element with a key once.
* `FirstSeen.keys_perm` — the keys of a list in another order.
* `FirstSeen.map_modify_idxOf` — changing the entry of one key.
-/

namespace FirstSeen

variable {α κ : Type*} [DecidableEq κ] (key : α → Option κ)

/-- The keys after another element. -/
def seen (ks : List κ) (a : α) : List κ :=
  match key a with
  | none => ks
  | some k => if k ∈ ks then ks else ks ++ [k]

/-- The keys of a list, each where it is seen first. -/
def keys (l : List α) : List κ := l.foldl (seen key) []

theorem keys_concat (l : List α) (a : α) : keys key (l ++ [a]) = seen key (keys key l) a := by
  simp [keys]

variable {key}

theorem mem_keys {l : List α} {k : κ} : k ∈ keys key l ↔ ∃ a ∈ l, key a = some k := by
  induction l using List.reverseRecOn with
  | nil => simp [keys]
  | append_singleton l a ih =>
    rw [keys_concat, seen]
    cases hkey : key a with
    | none => simp [ih, hkey]
    | some k' =>
      simp only [List.mem_append, List.mem_singleton, or_and_right, exists_or, exists_eq_left, hkey,
        Option.some_inj, ← ih]
      grind

theorem nodup_keys (l : List α) : (keys key l).Nodup := by
  induction l using List.reverseRecOn with
  | nil => exact List.nodup_nil
  | append_singleton l a ih =>
    rw [keys_concat, seen]
    cases key a with
    | none => exact ih
    | some k =>
      dsimp only
      split_ifs with hk
      · exact ih
      · exact List.nodup_append.2 ⟨ih, List.nodup_singleton k, by grind⟩

theorem keys_perm {l l' : List α} (h : l.Perm l') : (keys key l).Perm (keys key l') := by
  rw [List.perm_ext_iff_of_nodup (nodup_keys l) (nodup_keys l')]
  intro k
  simp only [mem_keys, h.mem_iff]

/-- Groups for all keys have every element with a key once. -/
theorem flatMap_filter_perm {l : List α} {ks : List κ} (hnodup : ks.Nodup)
    (hmem : ∀ a ∈ l, ∀ k, key a = some k → k ∈ ks) :
    (ks.flatMap fun k => l.filter (key · = some k)).Perm (l.filter (key · |>.isSome)) := by
  induction ks generalizing l with
  | nil =>
    have hnone : l.filter (key · |>.isSome) = [] := by
      rw [List.filter_eq_nil_iff]
      intro a ha hsome
      obtain ⟨k, hk⟩ := Option.isSome_iff_exists.1 hsome
      cases hmem a ha k hk
    rw [hnone]
    exact List.Perm.refl _
  | cons k ks ih =>
    obtain ⟨hk, hks⟩ := List.nodup_cons.1 hnodup
    have hothers : ∀ a ∈ l.filter (key · ≠ some k), ∀ k', key a = some k' → k' ∈ ks := by
      intro a ha k' hk'
      obtain ⟨hal, hne⟩ := List.mem_filter.1 ha
      rcases List.mem_cons.1 (hmem a hal k' hk') with rfl | hmem'
      · simp [hk'] at hne
      · exact hmem'
    have hsame : (ks.flatMap fun k' => l.filter (key · = some k')) =
        ks.flatMap fun k' => (l.filter (key · ≠ some k)).filter (key · = some k') := by
      apply List.flatMap_congr
      intro k' hk'
      rw [List.filter_filter]
      apply List.filter_congr
      intro a ha
      have hne : k' ≠ k := fun h => hk (h ▸ hk')
      grind
    have hfirst : l.filter (key · = some k) =
        (l.filter (key · |>.isSome)).filter (key · = some k) := by
      rw [List.filter_filter]
      apply List.filter_congr
      intro a ha
      cases key a <;> simp
    have hsecond : (l.filter (key · ≠ some k)).filter (key · |>.isSome) =
        (l.filter (key · |>.isSome)).filter fun a => !decide (key a = some k) := by
      rw [List.filter_filter, List.filter_filter]
      apply List.filter_congr
      intro a ha
      simp [Bool.and_comm]
    rw [List.flatMap_cons, hsame]
    refine ((ih hks hothers).append_left _).trans ?_
    rw [hfirst, hsecond]
    exact List.filter_append_perm _ _

omit [DecidableEq κ] in
/-- What is chosen for some keys, one thing for each. -/
theorem flatMap_toList_sublist {β : Type*} (ks : List κ) (f : κ → Option β) (g : β → κ)
    (h : ∀ k b, f k = some b → g b = k) :
    ((ks.flatMap fun k => (f k).toList).map g).Sublist ks := by
  induction ks with
  | nil => exact List.Sublist.refl _
  | cons k ks ih =>
    rw [List.flatMap_cons, List.map_append]
    cases hk : f k with
    | none => exact ih.cons k
    | some b =>
      rw [Option.toList_some, List.map_singleton, h k b hk]
      exact ih.cons_cons k

/-- Elements that are told apart by a function, with the same value of it, are one at most. -/
theorem toList_getLast? {β : Type*} {l : List α} {f : α → β} (hnodup : (l.map f).Nodup) {b : β}
    (h : ∀ a ∈ l, f a = b) : l.getLast?.toList = l := by
  match l with
  | [] => rfl
  | [a] => rfl
  | a :: a' :: l =>
    have hsame : f a = f a' := by rw [h a (by simp), h a' (by simp)]
    simp [hsame] at hnodup

/-- An entry for each key, with the one of `k` changed. -/
theorem map_modify_idxOf {β : Type*} [BEq κ] [LawfulBEq κ] {ks : List κ} (hnodup : ks.Nodup)
    {k : κ} (hk : k ∈ ks) (f : κ → β) (g : β → β) :
    (ks.map f).modify (ks.idxOf k) g = ks.map fun x => if x = k then g (f x) else f x := by
  induction ks with
  | nil => cases hk
  | cons x ks ih =>
    obtain ⟨hx, hks⟩ := List.nodup_cons.1 hnodup
    by_cases hxk : x = k
    · subst hxk
      have hrest : ks.map (fun y => if y = x then g (f y) else f y) = ks.map f := by
        apply List.map_congr_left
        intro y hy
        exact if_neg fun h : y = x => hx (h ▸ hy)
      simp [hrest]
    · have hmem : k ∈ ks := (List.mem_cons.1 hk).resolve_left (Ne.symm hxk)
      rw [List.idxOf_cons_ne _ hxk, List.map_cons, List.modify_succ_cons, ih hks hmem,
        List.map_cons, if_neg hxk]

theorem modify_append_left {l : List α} {i : ℕ} (hi : i < l.length) (l' : List α) (f : α → α) :
    (l ++ l').modify i f = l.modify i f ++ l' := by
  induction l generalizing i with
  | nil => exact absurd hi (Nat.not_lt_zero i)
  | cons a l ih =>
    cases i with
    | zero => rfl
    | succ i =>
      rw [List.cons_append, List.modify_succ_cons, ih (Nat.lt_of_succ_lt_succ hi),
        List.modify_succ_cons, List.cons_append]

theorem modify_append_right (l l' : List α) (i : ℕ) (f : α → α) :
    (l ++ l').modify (l.length + i) f = l ++ l'.modify i f := by
  induction l with
  | nil => simp
  | cons a l ih =>
    rw [List.length_cons, Nat.add_right_comm, List.cons_append, List.modify_succ_cons, ih,
      List.cons_append]

end FirstSeen
