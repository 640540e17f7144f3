import Medit.Library.ForestEdit

/-!
# Rows below a row

Forests that grow by new last children. A row is found by the path of positions that leads to it,
which stays the same while rows are added.

## Main definitions

* `Forest.kidsAt` — what is below the row at a path, or on top for the empty path.
* `Forest.appendAt` — a forest with another one behind that.

## Main results

* `Forest.appendAt_appendAt` — rows added one after the other.
* `Forest.appendAt_last` — rows added below the row that has been added last.
-/

namespace LinkedForest.Forest

variable {ι : Type*} {f g h : Forest ι} {x : ι}

/-- What is below the row at a path. -/
def kidsAt : List ℕ → Forest ι → Forest ι
  | [], f => f
  | _ :: _, nil => nil
  | 0 :: path, node _ k _ => kidsAt path k
  | (i + 1) :: path, node _ _ r => kidsAt (i :: path) r

/-- A forest behind what is below the row at a path. -/
def appendAt : List ℕ → Forest ι → Forest ι → Forest ι
  | [], f, g => f.append g
  | _ :: _, nil, _ => nil
  | 0 :: path, node x k r, g => node x (appendAt path k g) r
  | (i + 1) :: path, node x k r, g => node x k (appendAt (i :: path) r g)

attribute [elab_as_elim] appendAt.induct_unfolding

@[simp] theorem appendAt_nil (path : List ℕ) : appendAt path f nil = f := by
  fun_induction kidsAt path f with
  | case1 f => rw [appendAt, append_nil]
  | case2 i path => rw [appendAt]
  | case3 path x k r ih => rw [appendAt, ih]
  | case4 i path x k r ih => rw [appendAt, ih]

theorem appendAt_appendAt (path : List ℕ) :
    appendAt path (appendAt path f g) h = appendAt path f (g.append h) := by
  fun_induction kidsAt path f with
  | case1 f => simp only [appendAt, append_assoc]
  | case2 i path => simp only [appendAt]
  | case3 path x k r ih => simp only [appendAt, ih]
  | case4 i path x k r ih => simp only [appendAt, ih]

theorem appendAt_last_top (f g h : Forest ι) (x : ι) :
    appendAt [f.tops.length] (f.append (node x g nil)) h = f.append (node x (g.append h) nil) := by
  induction f with
  | nil => simp [appendAt]
  | node y k r _ ihr => simpa [appendAt] using ihr

/-- Rows that are added below the row that has been added last. -/
theorem appendAt_last (path : List ℕ) (f g h : Forest ι) (x : ι) :
    appendAt (path ++ [(kidsAt path f).tops.length]) (appendAt path f (node x g nil)) h =
      appendAt path f (node x (g.append h) nil) := by
  fun_induction kidsAt path f with
  | case1 f => simpa only [appendAt, List.nil_append] using appendAt_last_top f g h x
  | case2 i path => simp only [List.cons_append, appendAt]
  | case3 path y k r ih => simp only [List.cons_append, appendAt, ih]
  | case4 i path y k r ih => simpa [appendAt] using ih

end LinkedForest.Forest
