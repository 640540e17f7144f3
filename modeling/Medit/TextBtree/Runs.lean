import Mathlib.Logic.Relation
import Medit.TextBtree.Delete
import Medit.TextBtree.Marks

/-!
# Every run of the line tree

The tree after any sequence of insertions, deletions and changes of mark counts, in terms of what
can be reached from the root: `WellFormed` does not mention levels.

## Main results

* `BTree.Reachable.ok` — every reachable tree is in order.
* `BTree.Reachable.correct` — it is well formed, and each operation does on the lines what it
  does on a list.
-/

namespace Medit

open Function (update)
open LevelTree

namespace BTree

variable {t t' : BTree} {lev : Ptr → Option ℕ}

/-- The nodes `k` levels below the root. -/
def nodesAt (t : BTree) : ℕ → List Ptr
  | 0 => [t.root]
  | k + 1 => (t.nodesAt k).flatMap t.children

/-- The lines below a node `k` levels below the root. -/
def linesBelow (t : BTree) (k : ℕ) (p : Ptr) : List Ptr := leaves t.links (t.depth + 1 - k) p

/-- The representation invariant of the tree. -/
structure WellFormed (t : BTree) : Prop where
  isBottom : ∀ k ≤ t.depth, ∀ p ∈ t.nodesAt k, (t.isBottom p = true ↔ k = t.depth)
  capacity : ∀ k ≤ t.depth, ∀ p ∈ t.nodesAt k, p ≠ t.root →
    nodeMinCapacity ≤ (t.children p).length ∧ (t.children p).length ≤ nodeMaxCapacity - 1
  capacity_root : (t.children t.root).length ≤ nodeMaxCapacity - 1 ∧
    (t.isBottom t.root = false → 2 ≤ (t.children t.root).length)
  count : ∀ k ≤ t.depth, ∀ p ∈ t.nodesAt k, t.count p = (t.linesBelow k p).length
  nMarks : ∀ k ≤ t.depth, ∀ p ∈ t.nodesAt k,
    t.nMarks p = ((t.linesBelow k p).map t.nMarks).sum
  parent : ∀ k ≤ t.depth, ∀ p ∈ t.nodesAt k, ∀ c ∈ t.children p, t.parent c = some p
  parent_root : t.parent t.root = none
  nodup : t.lines.Nodup

theorem lev_of_mem_nodesAt (h : t.Linked lev) {k : ℕ} (hk : k ≤ t.depth) {p : Ptr}
    (hp : p ∈ t.nodesAt k) : lev p = some (t.depth - k + 1) := by
  induction k generalizing p with
  | zero =>
    obtain rfl : p = t.root := by simpa [nodesAt] using hp
    exact h.shape.root_lev
  | succ k ih =>
    obtain ⟨q, hq, hpq⟩ := List.mem_flatMap.1 hp
    have hlq := ih (Nat.le_of_succ_le hk) hq
    obtain ⟨l, hl⟩ := Nat.exists_eq_add_of_le' (Nat.sub_pos_of_lt hk)
    rw [hl] at hlq
    have := (h.shape.child hlq hpq).1
    rw [this]
    congr 1
    omega

theorem Ok.wellFormed (h : t.Ok lev) : t.WellFormed := by
  have hlev {k : ℕ} {p : Ptr} (hk : k ≤ t.depth) (hp : p ∈ t.nodesAt k) :=
    lev_of_mem_nodesAt h.toLinked hk hp
  have hheight {k : ℕ} (hk : k ≤ t.depth) : t.depth + 1 - k = t.depth - k + 1 := by omega
  have hlen {p : Ptr} {l : ℕ} (hp : lev p = some (l + 1)) :
      t.minChildren p l ≤ (t.children p).length ∧ (t.children p).length < nodeMaxCapacity := by
    simpa using h.filled p l hp
  refine ⟨fun k hk p hp => ?_, fun k hk p hp hpr => ?_, ?_, fun k hk p hp => ?_,
    fun k hk p hp => ?_, fun k hk p hp c hc => ?_, h.shape.root_parent, h.nodup_lines⟩
  · rw [h.isBottom (hlev hk hp)]
    omega
  · obtain ⟨hmin, hmax⟩ := hlen (hlev hk hp)
    rw [minChildren_of_ne hpr] at hmin
    exact ⟨hmin, Nat.le_sub_one_of_lt hmax⟩
  · obtain ⟨hmin, hmax⟩ := hlen h.shape.root_lev
    refine ⟨Nat.le_sub_one_of_lt hmax, fun hb => ?_⟩
    have hdepth : t.depth ≠ 0 := fun hz => by
      simp [(h.isBottom h.shape.root_lev).2 hz] at hb
    rwa [minChildren_root, if_neg hdepth] at hmin
  · rw [linesBelow, hheight hk, h.length_leaves_node (hlev hk hp)]
  · rw [linesBelow, hheight hk, h.sum_marks (hlev hk hp)]
  · exact (h.shape.child (hlev hk hp) hc).2

/-! ## Steps -/

/-- One operation on the tree, with what its callers promise. A change of the number of marks of
a line comes with a new array of that many. -/
inductive Step : BTree → BTree → Prop
  | insert {t t' : BTree} {index : ℕ} {d : Ptr} :
      index ≤ t.size → t.size + 1 < 2 ^ 26 → t.insert index = some (t', d) → Step t t'
  | delete {t t' : BTree} {index : ℕ} {removed removed' : List MarkPtr} :
      index < t.size → 1 < t.size → t.delete index removed = some (t', removed') → Step t t'
  | updateNMarks {t t' : BTree} {d : Ptr} {add : ℤ} {marks : List MarkPtr} :
      d ∈ t.lines → add ≠ 0 → 0 ≤ t.nMarks d + add → t.nMarks t.root + add < 2 ^ 31 →
      (marks.length : ℤ) = t.nMarks d + add →
      { t with marks := update t.marks d marks }.updateNMarks d add = some t' → Step t t'

/-- The trees that runs from `_moo_text_btree_new` lead to. -/
def Reachable : BTree → Prop := Relation.ReflTransGen Step new

/-- `BTData.marks` of every line has `n_marks` entries. -/
def Stocked (t : BTree) : Prop := ∀ x ∈ t.lines, t.nMarks x = (t.marks x).length

theorem new_ok : ∃ lev, new.Ok lev ∧ new.Stocked := by
  let lev : Ptr → Option ℕ := update (update (fun _ => none) 0 (some 1)) 1 (some 0)
  have hlev {p l} (hp : lev p = some l) : p = 0 ∧ l = 1 ∨ p = 1 ∧ l = 0 := by
    by_cases h1 : p = 1
    · subst h1
      exact .inr ⟨rfl, by simpa [lev] using hp.symm⟩
    · by_cases h0 : p = 0
      · subst h0
        exact .inl ⟨rfl, by simpa [lev] using hp.symm⟩
      · simp [lev, h0, h1] at hp
  have hnode {p l} (hp : lev p = some (l + 1)) : p = 0 ∧ l = 0 := by
    obtain ⟨rfl, hl⟩ | ⟨rfl, hl⟩ := hlev hp
    · exact ⟨rfl, by omega⟩
    · omega
  have hch : new.children 0 = [1] := rfl
  have hlines : new.lines = [1] := rfl
  refine ⟨lev, ⟨⟨⟨⟨rfl, rfl, fun hp => ?_, fun hp hc => ?_, fun hp hpr => ?_, fun hp => ?_⟩,
    fun hp => ?_, fun hp => ?_⟩, fun p l hp => ?_, fun p l hp => ?_, ?_, ?_⟩, fun p l hp => ?_⟩, ?_⟩
  · obtain ⟨-, rfl⟩ | ⟨-, rfl⟩ := hlev hp <;> decide
  · obtain ⟨rfl, rfl⟩ := hnode hp
    obtain rfl := List.mem_singleton.1 hc
    exact ⟨rfl, rfl⟩
  · obtain ⟨rfl, -⟩ | ⟨rfl, rfl⟩ := hlev hp
    · exact absurd rfl hpr
    · exact ⟨0, rfl, rfl, by simp [hch]⟩
  · obtain ⟨rfl, rfl⟩ := hnode hp
    simp [hch]
  · obtain ⟨rfl, rfl⟩ := hnode hp
    decide
  · obtain ⟨rfl, -⟩ | ⟨rfl, -⟩ := hlev hp <;> decide
  · obtain ⟨rfl, rfl⟩ := hnode hp
    rfl
  · obtain ⟨rfl, rfl⟩ := hnode hp
    rfl
  · decide
  · decide
  · obtain ⟨rfl, rfl⟩ := hnode hp
    decide
  · intro x hx
    rw [hlines] at hx
    obtain rfl := List.mem_singleton.1 hx
    rfl

theorem Inserts.stocked {index : ℕ} {d : Ptr} (h : Inserts t t' index d)
    (hi : index ≤ t.lines.length) (hs : t.Stocked) : t'.Stocked := by
  intro x hx
  rw [h.lines, List.mem_insertIdx hi] at hx
  rw [h.marks]
  obtain rfl | hx := hx
  · simp [h.nMarks_new]
  · rw [h.nMarks x hx, hs x hx, Function.update_of_ne]
    rintro rfl
    exact h.new hx

theorem Deletes.stocked {index : ℕ} {removed removed' : List MarkPtr} {d : Ptr}
    (h : Deletes t t' index removed removed' d) (hs : t.Stocked) : t'.Stocked := by
  intro x hx
  have hx' : x ∈ t.lines := by
    rw [h.lines] at hx
    exact (List.eraseIdx_sublist _ _).mem hx
  rw [h.nMarks x hx, hs x hx', h.marks]

theorem Counts.stocked {d : Ptr} {add : ℤ} {marks : List MarkPtr} (hs : t.Stocked)
    (hlen : (marks.length : ℤ) = t.nMarks d + add)
    (h : Counts { t with marks := update t.marks d marks } t' d add) : t'.Stocked := by
  intro x hx
  have hmarks : t'.marks = update t.marks d marks := by rw [h.eq]
  have hx' : x ∈ t.lines := by
    rw [h.lines] at hx
    exact hx
  rw [hmarks]
  by_cases hxd : x = d
  · subst hxd
    have := h.nMarks
    simp only at this
    rw [Function.update_self]
    omega
  · rw [h.nMarks_ne x hx' hxd, Function.update_of_ne hxd]
    exact hs x hx'

theorem Ok.of_marks (h : t.Ok lev) (m : Ptr → List MarkPtr) : Ok { t with marks := m } lev :=
  ⟨⟨⟨h.shape, h.isBottom, h.fresh⟩, h.counts, h.marks, h.count_lt, h.nMarks_lt⟩, h.filled⟩

/-- What one operation preserves. -/
theorem Step.ok (hstep : Step t t') (h : t.Ok lev) (hs : t.Stocked) :
    ∃ lev', t'.Ok lev' ∧ t'.Stocked := by
  cases hstep with
  | @insert index d hi hlt heq =>
    obtain ⟨t'', d', lev', heq', hok, hins⟩ := insert_spec h hi hlt
    obtain ⟨rfl, rfl⟩ : t'' = t' ∧ d' = d := by simpa [heq] using heq'.symm
    exact ⟨lev', hok, hins.stocked (h.length_lines ▸ hi) hs⟩
  | @delete index removed removed' hi hone heq =>
    obtain ⟨t'', r, d, lev', heq', hok, hdel⟩ := delete_spec h hone hi
      (fun x hx => (hs x hx).le) removed
    obtain ⟨rfl, rfl⟩ : t'' = t' ∧ r = removed' := by simpa [heq] using heq'.symm
    exact ⟨lev', hok, hdel.stocked hs⟩
  | @updateNMarks d add marks hd hadd hge hlt hlen heq =>
    obtain ⟨t'', heq', hok, hcounts⟩ := updateNMarks_spec (h.of_marks (update t.marks d marks))
      hd hadd hge hlt
    obtain rfl : t'' = t' := Option.some.inj (heq'.symm.trans heq)
    exact ⟨lev, hok, hcounts.stocked hs hlen⟩

/-- What every run leads to. -/
theorem Reachable.ok (h : t.Reachable) : ∃ lev, t.Ok lev ∧ t.Stocked := by
  induction h with
  | refl => exact new_ok
  | tail _ hstep ih =>
    obtain ⟨lev, hok, hs⟩ := ih
    exact hstep.ok hok hs

/-- After any run the tree is well formed, and it is a list: the operations do not fail, insert a
line, delete a line or leave the lines, and a search finds them. -/
theorem Reachable.correct (h : t.Reachable) :
    t.WellFormed ∧
    (∀ index ≤ t.size, t.size + 1 < 2 ^ 26 → ∃ t' d, t.insert index = some (t', d) ∧
      d ∉ t.lines ∧ t'.lines = t.lines.insertIdx index d ∧ t'.nMarks d = 0 ∧
      ∀ x ∈ t.lines, t'.nMarks x = t.nMarks x) ∧
    (∀ index < t.size, 1 < t.size → ∀ removed, ∃ t' removed',
      t.delete index removed = some (t', removed') ∧ t'.lines = t.lines.eraseIdx index ∧
      ∀ x ∈ t'.lines, t'.nMarks x = t.nMarks x) ∧
    (∀ d ∈ t.lines, ∀ add : ℤ, add ≠ 0 → 0 ≤ t.nMarks d + add →
      t.nMarks t.root + add < 2 ^ 31 → ∃ t', t.updateNMarks d add = some t' ∧
      t'.lines = t.lines ∧ (t'.nMarks d : ℤ) = t.nMarks d + add ∧
      ∀ x ∈ t.lines, x ≠ d → t'.nMarks x = t.nMarks x) ∧
    t.size = t.lines.length ∧ ∀ index < t.size, t.getData index = t.lines[index]? := by
  obtain ⟨lev, hok, hs⟩ := h.ok
  refine ⟨hok.wellFormed, fun index hi hlt => ?_, fun index hi hone removed => ?_,
    fun d hd add hadd hge hlt => ?_, hok.length_lines.symm, fun index hi => hok.getData_eq hi⟩
  · obtain ⟨t', d, lev', heq, -, hins⟩ := insert_spec hok hi hlt
    exact ⟨t', d, heq, hins.new, hins.lines, hins.nMarks_new, hins.nMarks⟩
  · obtain ⟨t', removed', d, lev', heq, -, hdel⟩ := delete_spec hok hone hi
      (fun x hx => (hs x hx).le) removed
    exact ⟨t', removed', heq, hdel.lines, hdel.nMarks⟩
  · obtain ⟨t', heq, -, hcounts⟩ := updateNMarks_spec hok hd hadd hge hlt
    exact ⟨t', heq, hcounts.lines, hcounts.nMarks, hcounts.nMarks_ne⟩

/-- A second line after the first. -/
theorem Reachable.correct_two_lines : ∃ t d, new.insert 1 = some (t, d) ∧ t.WellFormed ∧
    t.lines = [1, d] ∧ t.getData 1 = some d := by
  obtain ⟨t, d, heq, -, hlines, -⟩ := (Reachable.correct .refl).2.1 1 (by decide) (by decide)
  have hstep : new.Step t := .insert (by decide) (by decide) heq
  obtain ⟨hwf, -, -, -, hsize, hget⟩ := Reachable.correct (.single hstep)
  have hlines : t.lines = [1, d] := hlines
  rw [hlines] at hsize hget
  exact ⟨t, d, heq, hwf, hlines, hget 1 (by simp [hsize])⟩

/-- Two legal additions after which one mark cannot be taken away again, and an addition of
nothing: both end in a failed assertion. -/
theorem updateNMarks_fails :
    (new.updateNMarks 1 0).isNone ∧
    ((new.updateNMarks 1 (2 ^ 31 - 1)).bind fun t => t.updateNMarks 1 (2 ^ 31 - 1)).isSome ∧
    (((new.updateNMarks 1 (2 ^ 31 - 1)).bind fun t => t.updateNMarks 1 (2 ^ 31 - 1)).bind
      fun t => t.updateNMarks 1 (-1)).isNone := by
  decide

end BTree

end Medit
