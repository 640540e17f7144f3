import Mathlib.Data.List.Sort

/-!
# The first of a sorted list

A list that is sorted, or sorted as far as its first elements, by functions of which only the
contract is known.

## Main definitions

* `BestFirst.Sorter` — a full sort and one for the first elements.
* `BestFirst.Sorter.best` — the first elements of a list in order.

## Main results

* `BestFirst.Sorter.best_eq` — without ties, they are those of any sorted list of the same elements.
-/

namespace BestFirst

variable {α : Type*} {less : α → α → Prop}

/-- What a standard library promises of its sort, and of the sort that puts the `n` first elements
in front. -/
structure Sorter (less : α → α → Prop) where
  sort : List α → List α
  partialSort : ℕ → List α → List α
  sort_perm : ∀ l, (sort l).Perm l
  sort_sorted : ∀ l, (sort l).Pairwise fun a b => ¬ less b a
  partialSort_perm : ∀ n l, (partialSort n l).Perm l
  partialSort_sorted : ∀ n l, ((partialSort n l).take n).Pairwise fun a b => ¬ less b a
  partialSort_least : ∀ n l, ∀ a ∈ (partialSort n l).take n, ∀ b ∈ (partialSort n l).drop n,
    ¬ less b a

/-- At most the first `n` elements: the whole list is sorted only where it is not cut. -/
def Sorter.best (s : Sorter less) (n : ℕ) (l : List α) : List α :=
  if n < l.length then (s.partialSort n l).take n else s.sort l

/-- Sorting by merging, for an order in which no two steps lead back. -/
def Sorter.ofMergeSort [DecidableRel less] (asymm : ∀ a b, less a b → ¬ less b a)
    (trans : ∀ a b c, ¬ less b a → ¬ less c b → ¬ less c a) : Sorter less :=
  let le : α → α → Bool := fun a b => !decide (less b a)
  have sorted (l : List α) : (l.mergeSort le).Pairwise fun a b => ¬ less b a := by
    have hsorted : (l.mergeSort le).Pairwise fun a b => le a b = true := by
      apply List.pairwise_mergeSort
      · simpa [le] using fun a b c => trans a b c
      · intro a b
        by_cases h : less b a
        · simp [le, asymm b a h]
        · simp [le, h]
    simpa [le] using hsorted
  { sort := (·.mergeSort le)
    partialSort := fun _ => (·.mergeSort le)
    sort_perm := fun l => List.mergeSort_perm l le
    sort_sorted := sorted
    partialSort_perm := fun _ l => List.mergeSort_perm l le
    partialSort_sorted := fun n l => (sorted l).sublist (List.take_sublist n _)
    partialSort_least := by
      intro n l a ha b hb
      have hpairwise := sorted l
      rw [← List.take_append_drop n (l.mergeSort le)] at hpairwise
      exact (List.pairwise_append.1 hpairwise).2.2 a ha b hb }

/-- No two elements of the list are in the same place of the order. -/
def NoTies (less : α → α → Prop) (l : List α) : Prop :=
  ∀ a ∈ l, ∀ b ∈ l, ¬ less a b → ¬ less b a → a = b

/-- A list without ties has one sorted form. -/
theorem NoTies.eq_sort {l l' : List α} (h : NoTies less l) (s : Sorter less)
    (hsorted : l'.Pairwise fun a b => ¬ less b a) (hperm : l'.Perm l) : l' = s.sort l := by
  apply List.Perm.eq_of_pairwise _ hsorted (s.sort_sorted l) (hperm.trans (s.sort_perm l).symm)
  intro a b ha hb hba hab
  exact h a (hperm.mem_iff.1 ha) b ((s.sort_perm l).mem_iff.1 hb) hab hba

/-- The cut of a partial sort is the cut of the sorted list. -/
theorem NoTies.take_partialSort {l : List α} (h : NoTies less l) (s : Sorter less) {n : ℕ}
    (hn : n ≤ l.length) : (s.partialSort n l).take n = (s.sort l).take n := by
  have hperm := s.partialSort_perm n l
  have hsorted : ((s.partialSort n l).take n ++ s.sort ((s.partialSort n l).drop n)).Pairwise
      fun a b => ¬ less b a := by
    refine List.pairwise_append.2 ⟨s.partialSort_sorted n l, s.sort_sorted _, ?_⟩
    intro a ha b hb
    exact s.partialSort_least n l a ha b ((s.sort_perm _).mem_iff.1 hb)
  have hsame : ((s.partialSort n l).take n ++ s.sort ((s.partialSort n l).drop n)).Perm l := by
    refine ((s.sort_perm _).append_left _).trans ?_
    rwa [List.take_append_drop]
  rw [← h.eq_sort s hsorted hsame, List.take_append_of_le_length, List.take_take, Nat.min_self]
  rw [List.length_take, hperm.length_eq, Nat.min_eq_left hn]

theorem NoTies.perm {l l' : List α} (h : NoTies less l) (hperm : l'.Perm l) : NoTies less l' :=
  fun a ha b hb => h a (hperm.mem_iff.1 ha) b (hperm.mem_iff.1 hb)

/-- The best elements of a list without ties do not depend on their order, nor on the sort. -/
theorem Sorter.best_eq {l l' : List α} (s s' : Sorter less) (h : NoTies less l)
    (hperm : l'.Perm l) (n : ℕ) : s'.best n l' = (s.sort l).take n := by
  have hsort : s'.sort l' = s.sort l :=
    h.eq_sort s (s'.sort_sorted l') ((s'.sort_perm l').trans hperm)
  unfold Sorter.best
  split_ifs with hn
  · rw [(h.perm hperm).take_partialSort s' hn.le, hsort]
  · rw [hsort, List.take_of_length_le]
    rw [(s.sort_perm l).length_eq, ← hperm.length_eq]
    exact not_lt.1 hn

end BestFirst
