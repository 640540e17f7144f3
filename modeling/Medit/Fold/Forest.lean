import Mathlib.Data.Int.Notation
import Mathlib.Data.List.Perm.Basic
import Medit.Library.LinkedForest

/-!
# Forests of line ranges

The nodes of a forest have a first and a last line. In a nested forest siblings are in order
and disjoint, and the range of a node is in that of the one above and starts later.
-/

namespace Medit

open LinkedForest LinkedForest.Forest

variable {ι : Type*} {start stop : ι → ℤ} {z : ι} {a b lo hi : ℤ} {f g k r : Forest ι} {x y : ι}

/-- The ranges of the siblings `f` are between `lo` and `hi`, in order and disjoint, and so are
those below them, which start later than the node they are below. -/
def Nested (start stop : ι → ℤ) : ℤ → ℤ → Forest ι → Prop
  | _, _, nil => True
  | lo, hi, node x k r => lo ≤ start x ∧ start x < stop x ∧ stop x ≤ hi ∧
      Nested start stop (start x + 1) (stop x) k ∧ Nested start stop (stop x + 1) hi r

/-- The forest with a new node for the lines `a` to `b`; there is none if the range
crosses another, or starts or ends on a line where another one starts or ends. -/
def addRange (start stop : ι → ℤ) (z : ι) (a b : ℤ) : Forest ι → Option (Forest ι)
  | nil => some (node z nil nil)
  | node x k r =>
    if stop x < a then (addRange start stop z a b r).map (node x k ·)
    else if start x > b then some (node z nil (node x k r))
    else if start x = a ∨ stop x = a ∨ start x = b then none
    else if start x < a then
      if stop x < b then none else (addRange start stop z a b k).map (node x · r)
    else if stop x > b then none
    else some (node z (node x k nil) r)

/-- The forest without a node, whose children take its place. -/
def removeNode [DecidableEq ι] (z : ι) : Forest ι → Forest ι
  | nil => nil
  | node x k r => if x = z then k.append r else node x (removeNode z k) (removeNode z r)

theorem addRange_nodes (h : addRange start stop z a b f = some g) :
    g.nodes.Perm (z :: f.nodes) := by
  induction f generalizing g with
  | nil =>
    obtain rfl := Option.some.inj h
    exact .refl _
  | node x k r ihk ihr =>
    rw [addRange] at h
    split_ifs at h
    · obtain ⟨s, hs, rfl⟩ := Option.map_eq_some_iff.1 h
      exact (((ihr hs).append_left k.nodes).cons x).trans
        ((List.perm_middle.cons x).trans (.swap z x _))
    · obtain rfl := Option.some.inj h
      simp
    · obtain ⟨s, hs, rfl⟩ := Option.map_eq_some_iff.1 h
      exact (((ihk hs).append_right r.nodes).cons x).trans (.swap z x _)
    · obtain rfl := Option.some.inj h
      simp

theorem removeNode_of_notMem [DecidableEq ι] (hz : z ∉ f.nodes) : removeNode z f = f := by
  induction f with
  | nil => rfl
  | node x k r ihk ihr =>
    simp only [nodes_node, List.mem_cons, List.mem_append, not_or] at hz
    rw [removeNode, if_neg (Ne.symm hz.1), ihk hz.2.1, ihr hz.2.2]

theorem removeNode_nodes [DecidableEq ι] (hnd : f.nodes.Nodup) :
    (removeNode z f).nodes = f.nodes.erase z := by
  induction f with
  | nil => rfl
  | node x k r ihk ihr =>
    rw [nodes_node, List.nodup_cons, List.nodup_append] at hnd
    obtain ⟨hx, hk, hr, hkr⟩ := hnd
    rw [removeNode]
    split
    · next h => simp [h]
    · next h =>
      rw [nodes_node, nodes_node, ihk hk, ihr hr, List.erase_cons_tail (by simpa using h)]
      by_cases hz : z ∈ k.nodes
      · rw [List.erase_append_left _ hz, List.erase_of_not_mem fun hzr => hkr z hz z hzr rfl]
      · rw [List.erase_append_right _ hz, List.erase_of_not_mem hz]

/-! ## Nested forests -/

namespace Nested

theorem congr (hn : Nested start stop lo hi f) {start' stop' : ι → ℤ}
    (hstart : ∀ x ∈ f.nodes, start' x = start x) (hstop : ∀ x ∈ f.nodes, stop' x = stop x) :
    Nested start' stop' lo hi f := by
  induction f generalizing lo hi with
  | nil => trivial
  | node x k r ihk ihr =>
    obtain ⟨hlo, hlt, hhi, hk, hr⟩ := hn
    rw [Nested, hstart x (by simp), hstop x (by simp)]
    exact ⟨hlo, hlt, hhi, ihk hk (fun y hy => hstart y (by simp [hy])) fun y hy => hstop y (by simp [hy]),
      ihr hr (fun y hy => hstart y (by simp [hy])) fun y hy => hstop y (by simp [hy])⟩

theorem mono (hn : Nested start stop lo hi f) {lo' : ℤ} (hlo : lo' ≤ lo) :
    Nested start stop lo' hi f := by
  cases f with
  | nil => trivial
  | node x k r => exact ⟨Int.le_trans hlo hn.1, hn.2⟩

theorem bounds (hn : Nested start stop lo hi f) (hx : x ∈ f.nodes) :
    lo ≤ start x ∧ start x < stop x ∧ stop x ≤ hi := by
  induction f generalizing lo hi with
  | nil => simp at hx
  | node y k r ihk ihr =>
    obtain ⟨hlo, hlt, hhi, hk, hr⟩ := hn
    simp only [nodes_node, List.mem_cons, List.mem_append] at hx
    rcases hx with rfl | hx | hx
    · exact ⟨hlo, hlt, hhi⟩
    · have := ihk hk hx
      omega
    · have := ihr hr hx
      omega

/-- In a nested forest, nodes that come first start first. -/
theorem pairwise (hn : Nested start stop lo hi f) :
    f.nodes.Pairwise fun x y => start x < start y := by
  induction f generalizing lo hi with
  | nil => exact .nil
  | node x k r ihk ihr =>
    obtain ⟨hlo, hlt, hhi, hk, hr⟩ := hn
    refine List.pairwise_cons.2 ⟨fun y hy => ?_, List.pairwise_append.2 ⟨ihk hk, ihr hr, ?_⟩⟩
    · rcases List.mem_append.1 hy with hy | hy
      · have := hk.bounds hy
        omega
      · have := hr.bounds hy
        omega
    · intro y hy z hz
      have := hk.bounds hy
      have := hr.bounds hz
      omega

/-- Siblings are in order and disjoint. -/
theorem pairwise_tops (hn : Nested start stop lo hi f) :
    f.tops.Pairwise fun x y => stop x < start y := by
  induction f generalizing lo with
  | nil => exact .nil
  | node x k r _ ihr =>
    obtain ⟨-, -, -, -, hr⟩ := hn
    refine List.pairwise_cons.2 ⟨fun y hy => ?_, ihr hr⟩
    have := hr.bounds (tops_subset hy)
    omega

theorem append (hf : Nested start stop lo b f) (hg : Nested start stop a hi g) (hab : b < a)
    (hlo : lo ≤ a) (hhi : b ≤ hi) : Nested start stop lo hi (f.append g) := by
  induction f generalizing lo with
  | nil => exact hg.mono hlo
  | node x k r _ ihr =>
    obtain ⟨hx, hlt, hb, hk, hr⟩ := hf
    exact ⟨hx, hlt, Int.le_trans hb hhi, hk, ihr hr (by omega)⟩

theorem removeNode [DecidableEq ι] (hn : Nested start stop lo hi f) :
    Nested start stop lo hi (removeNode z f) := by
  induction f generalizing lo hi with
  | nil => trivial
  | node x k r ihk ihr =>
    obtain ⟨hlo, hlt, hhi, hk, hr⟩ := hn
    rw [Medit.removeNode]
    split
    · exact (hk.mono (by omega)).append hr (by omega) (by omega) hhi
    · exact ⟨hlo, hlt, hhi, ihk hk, ihr hr⟩

end Nested

/-- The line `l` is hidden by a collapsed node. -/
def Covered (start stop : ι → ℤ) (collapsed : ι → Bool) (f : Forest ι) (l : ℤ) : Prop :=
  ∃ x ∈ f.nodes, collapsed x = true ∧ start x < l ∧ l ≤ stop x

variable {collapsed : ι → Bool} {l : ℤ}

theorem covered_node : Covered start stop collapsed (node x k r) l ↔
    (collapsed x = true ∧ start x < l ∧ l ≤ stop x) ∨ Covered start stop collapsed k l ∨
      Covered start stop collapsed r l := by
  simp only [Covered, nodes_node, List.mem_cons, List.mem_append, or_and_right, exists_or,
    exists_eq_left]

theorem not_covered_nil : ¬ Covered start stop collapsed (nil : Forest ι) l := by
  simp [Covered]

theorem Nested.of_covered (hn : Nested start stop lo hi f)
    (hc : Covered start stop collapsed f l) : lo < l ∧ l ≤ hi := by
  obtain ⟨x, hx, -, hlt, hle⟩ := hc
  have := hn.bounds hx
  omega

end Medit
