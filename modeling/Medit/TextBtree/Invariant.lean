import Medit.Library.LevelTreeEdit
import Medit.TextBtree.Model

/-!
# The invariant of the line tree

The representation invariant of `mootextbtree.cpp` (`CHECK_INTEGRITY` there, compiled out), over a
level function as in `LevelTree`: lines are on level `0`, bottom nodes on level `1` and the
root on level `depth + 1`. From it follows what the search for a line number finds.
-/

namespace Medit

namespace BTree

open LevelTree

/-- The pointers of the tree. -/
def links (t : BTree) : Links Ptr := ⟨t.children, t.parent⟩

@[simp] theorem links_children (t : BTree) : t.links.children = t.children := rfl
@[simp] theorem links_parent (t : BTree) : t.links.parent = t.parent := rfl

/-- The lines in order. -/
def lines (t : BTree) : List Ptr := leaves t.links (t.depth + 1) t.root

/-- The number of lines of a node with the given `count` fields; a line counts once. -/
def lineCount (count : Ptr → ℕ) : ℕ → Ptr → ℤ
  | 0, _ => 1
  | _ + 1, p => count p

/-- The number of marks of a node or a line. -/
def markCount (nMarks : Ptr → ℕ) : ℕ → Ptr → ℤ := fun _ p => nMarks p

@[simp] theorem lineCount_succ (c : Ptr → ℕ) (l : ℕ) (p : Ptr) : lineCount c (l + 1) p = c p := rfl
@[simp] theorem lineCount_zero (c : Ptr → ℕ) (p : Ptr) : lineCount c 0 p = 1 := rfl
@[simp] theorem markCount_apply (m : Ptr → ℕ) (l : ℕ) (p : Ptr) : markCount m l p = m p := rfl

theorem natCast_sum_map (f : Ptr → ℕ) (xs : List Ptr) :
    (((xs.map f).sum : ℕ) : ℤ) = (xs.map fun p => (f p : ℤ)).sum := by
  induction xs with
  | nil => rfl
  | cons x xs ih => simp [ih]

/-- A sum without one of them. -/
theorem sum_map_erase (f : Ptr → ℤ) {cs : List Ptr} {c : Ptr} (hc : c ∈ cs) :
    ((cs.erase c).map f).sum = (cs.map f).sum - f c := by
  have := ((List.perm_cons_erase hc).map f).sum_eq
  rw [List.map_cons, List.sum_cons] at this
  omega

/-- Pointers and `is_bottom`. -/
structure Linked (t : BTree) (lev : Ptr → Option ℕ) : Prop where
  shape : Shape t.links lev t.root (t.depth + 1)
  isBottom : ∀ {p l}, lev p = some (l + 1) → (t.isBottom p = true ↔ l = 0)
  fresh : ∀ {p l}, lev p = some l → p < t.next

/-- Pointers, `count` and `n_marks`; the numbers stay within their machine types. -/
structure Inv (t : BTree) (lev : Ptr → Option ℕ) : Prop extends Linked t lev where
  counts : SumsTo t.links lev (lineCount t.count) none 0
  marks : SumsTo t.links lev (markCount t.nMarks) none 0
  count_lt : t.count t.root < 2 ^ 26
  nMarks_lt : t.nMarks t.root < 2 ^ 31

/-- Every node has a child. -/
def NonEmpty (t : BTree) (lev : Ptr → Option ℕ) : Prop :=
  ∀ {p l}, lev p = some (l + 1) → t.children p ≠ []

/-- The least number of children of a node on level `l + 1`. -/
def minChildren (t : BTree) (p : Ptr) (l : ℕ) : ℕ :=
  if p = t.root then if l = 0 then 1 else 2 else nodeMinCapacity

/-- The numbers of children. The node `off` may have `less` too few or `more` too many. -/
def Filled (t : BTree) (lev : Ptr → Option ℕ) (off : Option Ptr) (less more : ℕ) : Prop :=
  ∀ p l, lev p = some (l + 1) →
    t.minChildren p l ≤ (t.children p).length + (if off = some p then less else 0) ∧
    (t.children p).length < nodeMaxCapacity + (if off = some p then more else 0)

variable {t : BTree} {lev : Ptr → Option ℕ}

theorem minChildren_of_ne {p : Ptr} (hp : p ≠ t.root) (l : ℕ) :
    t.minChildren p l = nodeMinCapacity := if_neg hp

theorem minChildren_root (l : ℕ) : t.minChildren t.root l = if l = 0 then 1 else 2 := if_pos rfl

theorem minChildren_pos (p : Ptr) (l : ℕ) : 0 < t.minChildren p l := by
  unfold minChildren
  split_ifs <;> decide

theorem Filled.nonEmpty {off : Option Ptr} {more : ℕ} (h : t.Filled lev off 0 more) :
    t.NonEmpty lev := by
  intro p l hp
  have hmin := t.minChildren_pos p l
  have hlen := (h p l hp).1
  rw [ite_self, add_zero] at hlen
  exact List.ne_nil_of_length_pos (hmin.trans_le hlen)

theorem Linked.lev_next (h : t.Linked lev) : lev t.next = none := by
  cases hn : lev t.next with
  | none => rfl
  | some l => exact absurd (h.fresh hn) (lt_irrefl _)

/-- The length of the lines below a node is its `count`. -/
theorem length_leaves (h : t.Linked lev) (hs : SumsTo t.links lev (lineCount t.count) none 0)
    {l : ℕ} {p : Ptr} (hp : lev p = some l) :
    ((leaves t.links l p).length : ℤ) = lineCount t.count l p := by
  rw [← hs.sum_leaves h.shape hp]
  have : lineCount t.count 0 = fun _ => (1 : ℤ) := rfl
  simp [this]

namespace Inv

variable (h : t.Inv lev)
include h

theorem length_leaves_node {l : ℕ} {p : Ptr} (hp : lev p = some (l + 1)) :
    (leaves t.links (l + 1) p).length = t.count p := by
  have := length_leaves h.toLinked h.counts hp
  simpa using this

theorem length_lines : t.lines.length = t.size := h.length_leaves_node h.shape.root_lev

theorem sum_marks {l : ℕ} {p : Ptr} (hp : lev p = some l) :
    ((leaves t.links l p).map t.nMarks).sum = t.nMarks p := by
  have hsum := h.marks.sum_leaves h.shape hp
  have : markCount t.nMarks 0 = fun p => ((t.nMarks p : ℕ) : ℤ) := rfl
  rw [this, markCount_apply, ← natCast_sum_map] at hsum
  exact_mod_cast hsum

/-- No node has more lines than the root. -/
theorem count_le {l : ℕ} {p : Ptr} (hp : lev p = some (l + 1)) : t.count p ≤ t.count t.root := by
  obtain ⟨pre, post, hu⟩ := h.shape.under_root hp
  have hlen := congrArg List.length hu.leaves_eq
  rw [List.length_append, List.length_append, h.length_leaves_node h.shape.root_lev,
    h.length_leaves_node hp] at hlen
  omega

theorem count_bound {l : ℕ} {p : Ptr} (hp : lev p = some (l + 1)) : t.count p < 2 ^ 26 :=
  (h.count_le hp).trans_lt h.count_lt

/-- Nothing has more marks than the root. -/
theorem nMarks_le {l : ℕ} {p : Ptr} (hp : lev p = some l) : t.nMarks p ≤ t.nMarks t.root := by
  obtain ⟨pre, post, hu⟩ := h.shape.under_root hp
  have hsum := congrArg (fun xs => (xs.map t.nMarks).sum) hu.leaves_eq
  simp only [List.map_append, List.sum_append, h.sum_marks h.shape.root_lev, h.sum_marks hp]
    at hsum
  omega

theorem nMarks_bound {l : ℕ} {p : Ptr} (hp : lev p = some l) : t.nMarks p < 2 ^ 31 :=
  (h.nMarks_le hp).trans_lt h.nMarks_lt

theorem nodup_lines : t.lines.Nodup := h.shape.nodup_leaves h.shape.root_lev

theorem mem_lines_iff {x : Ptr} : x ∈ t.lines ↔ lev x = some 0 := by
  constructor
  · have key : ∀ l p, lev p = some l → x ∈ leaves t.links l p → lev x = some 0 := by
      intro l
      induction l with
      | zero =>
        intro p hp hx
        obtain rfl : x = p := by simpa using hx
        exact hp
      | succ l ih =>
        intro p hp hx
        obtain ⟨c, hc, hxc⟩ := List.mem_flatMap.1 hx
        exact ih c (h.shape.child hp hc).1 hxc
    exact key _ _ h.shape.root_lev
  · intro hx
    obtain ⟨pre, post, hu⟩ := h.shape.under_root hx
    rw [lines, hu.leaves_eq]
    simp

end Inv

/-! ## The descent to a line -/

theorem findChild_spec (t : BTree) (e : ℕ) (cs : List Ptr) (index : ℕ)
    (hlt : index < (cs.map t.count).sum + e) (hne : cs ≠ [] ∨ e ≤ index) :
    ∃ A c B i, t.findChild (fun index count => decide (count + e ≤ index)) cs index = some (c, i) ∧
      cs = A ++ c :: B ∧ (A.map t.count).sum + i = index ∧ i < t.count c + e := by
  induction cs generalizing index with
  | nil =>
    simp only [List.map_nil, List.sum_nil, ne_eq, not_true_eq_false, false_or] at hlt hne
    omega
  | cons c cs ih =>
    by_cases hskip : t.count c + e ≤ index
    · simp only [List.map_cons, List.sum_cons] at hlt
      obtain ⟨A, d, B, i, hfind, rfl, hsum, hi⟩ := ih (index - t.count c) (by omega) (by omega)
      refine ⟨c :: A, d, B, i, by simp [findChild, hskip, hfind], rfl, ?_, hi⟩
      simp only [List.map_cons, List.sum_cons]
      omega
    · exact ⟨[], c, cs, index, by simp [findChild, hskip], rfl, by simp, by omega⟩

/-- The descent ends at the bottom node whose lines are around the index. `e` is `1` when the end
of a node's lines counts as inside. -/
theorem descend_spec (h : t.Linked lev) (hs : SumsTo t.links lev (lineCount t.count) none 0)
    (hne : t.NonEmpty lev) (e : ℕ) {l : ℕ} {p : Ptr} (hp : lev p = some (l + 1)) {index : ℕ}
    (hlt : index < t.count p + e) :
    ∃ b i pre post,
      t.descend (fun index count => decide (count + e ≤ index)) (l + 1) p index = some (b, i) ∧
      Under t.links b 1 (l + 1) p pre post ∧ pre.length + i = index ∧
      i < (t.children b).length + e := by
  induction l generalizing p index with
  | zero =>
    refine ⟨p, index, [], [], ?_, .here, by simp, ?_⟩
    · simp [descend, (h.isBottom hp).2 rfl]
    · have hlen := length_leaves h hs hp
      rw [zero_add, leaves_one] at hlen
      simp only [lineCount, links_children, Nat.cast_inj] at hlen
      omega
  | succ l ih =>
    have hbot : t.isBottom p = false := by
      have := h.isBottom hp
      simpa using this
    have hsum : (t.children p |>.map t.count).sum = t.count p := by
      have hsum := hs p (l + 1) hp
      have : lineCount t.count (l + 1) = fun p => ((t.count p : ℕ) : ℤ) := rfl
      rw [this, ← natCast_sum_map, if_neg (by simp), add_zero, lineCount_succ] at hsum
      exact_mod_cast hsum
    obtain ⟨A, c, B, i, hfind, hcs, hA, hi⟩ :=
      findChild_spec t e (t.children p) index (by omega) (.inl (hne hp))
    have hchild {x : Ptr} (hx : x ∈ t.children p) : lev x = some (l + 1) := (h.shape.child hp hx).1
    obtain ⟨b, j, pre, post, hdesc, hu, hpre, hj⟩ := ih (hchild (by simp [hcs])) hi
    refine ⟨b, j, _, _, ?_, .step hcs hu, ?_, hj⟩
    · rw [descend, hbot]
      simp [hfind, hdesc]
    · have hAlen : (A.flatMap (leaves t.links (l + 1))).length = (A.map t.count).sum := by
        rw [List.length_flatMap]
        refine congrArg _ (List.map_congr_left fun a ha => ?_)
        have := length_leaves h hs (hchild (x := a) (by simp [hcs, ha]))
        simpa using this
      rw [List.length_append, hAlen]
      omega

/-- `_moo_text_btree_get_data` finds the line with the given number. -/
theorem Inv.getData_eq (h : t.Inv lev) (hne : t.NonEmpty lev) {index : ℕ} (hi : index < t.size) :
    t.getData index = t.lines[index]? := by
  obtain ⟨b, i, pre, post, hdesc, hu, hpre, hlt⟩ :=
    descend_spec h.toLinked h.counts hne 0 h.shape.root_lev (by simpa [size] using hi)
  have hlines : t.lines = pre ++ t.children b ++ post := by
    rw [lines, hu.leaves_eq]
    simp
  have hdesc' : t.descend (fun index count => decide (count ≤ index)) (t.depth + 1) t.root index =
      some (b, i) := hdesc
  have hi' : index < t.count t.root := hi
  simp only [getData, gAssert_true hi', hdesc', Option.bind_eq_bind, Option.bind_some, hlines]
  rw [List.append_assoc, List.getElem?_append_right (by omega),
    List.getElem?_append_left (by omega)]
  congr 1
  omega

end BTree

end Medit
