import Medit.TextBtree.Split

/-!
# Inserting a line

`_moo_text_btree_insert` puts a new line into a bottom node, counts it in every node above and
splits the nodes that have become full.
-/

namespace Medit

open Function (update)
open LevelTree

theorem insertIdx_middle {α : Type*} (pre cs post : List α) (d : α) {i : ℕ}
    (hi : i ≤ cs.length) :
    (pre ++ cs ++ post).insertIdx (pre.length + i) d = pre ++ cs.insertIdx i d ++ post := by
  have := insertIdx_append (pre ++ cs.take i) (cs.drop i ++ post) d
  rw [List.length_append, List.length_take, min_eq_left hi] at this
  have hcs : pre ++ cs ++ post = pre ++ cs.take i ++ (cs.drop i ++ post) := by
    rw [List.append_assoc, List.append_assoc, ← List.append_assoc (cs.take i),
      List.take_append_drop]
  rw [hcs, this, insertIdx_eq_take_drop d hi]
  simp

namespace BTree

variable {t t' : BTree} {lev : Ptr → Option ℕ}

/-- Every address, number and number of children is as it should be. -/
structure Ok (t : BTree) (lev : Ptr → Option ℕ) : Prop extends Inv t lev where
  filled : t.Filled lev none 0 0

theorem Ok.getData_eq (h : t.Ok lev) {index : ℕ} (hi : index < t.size) :
    t.getData index = t.lines[index]? := h.toInv.getData_eq h.filled.nonEmpty hi

theorem Ok.of_stamp (h : t.Ok lev) (s : ℕ) : Ok { t with stamp := s } lev :=
  ⟨⟨⟨h.shape, h.isBottom, h.fresh⟩, h.counts, h.marks, h.count_lt, h.nMarks_lt⟩, h.filled⟩

/-- `d` is a new line of `t'`, before the line `index` of `t`. -/
structure Inserts (t t' : BTree) (index : ℕ) (d : Ptr) : Prop where
  new : d ∉ t.lines
  lines : t'.lines = t.lines.insertIdx index d
  nMarks : ∀ x ∈ t.lines, t'.nMarks x = t.nMarks x
  nMarks_new : t'.nMarks d = 0
  marks : t'.marks = update t.marks d []
  mark : t'.mark = t.mark
  stamp : t'.stamp = guint (t.stamp + 1)

/-- A line is put into a bottom node. -/
def withLine (t : BTree) (node : Ptr) (i : ℕ) : BTree :=
  { t with
    parent := update t.parent t.next (some node)
    nMarks := update t.nMarks t.next 0
    marks := update t.marks t.next []
    children := update t.children node ((t.children node).insertIdx i t.next)
    next := t.next + 1 }

section WithLine

variable {node : Ptr} {i : ℕ} {pre post : List Ptr}

theorem withLine_adds (t : BTree) (node : Ptr) (i : ℕ) :
    Adds t.links (t.withLine node i).links node t.next i :=
  ⟨by simp [withLine], fun p hp _ => by simp [withLine, hp], by simp [withLine],
    fun p hp => by simp [withLine, hp]⟩

theorem withLine_lines (h : t.Linked lev) (hnode : lev node = some 1)
    (hu : Under t.links node 1 (t.depth + 1) t.root pre post) (hi : i ≤ (t.children node).length) :
    (t.withLine node i).lines = t.lines.insertIdx (pre.length + i) t.next := by
  have hrep := hu.leaves_replace (M := (t.withLine node i).links) h.shape hnode
    (fun p hp => by simp [withLine, hp]) h.shape.root_lev
  have hlines : t.lines = pre ++ t.children node ++ post := by
    rw [lines, hu.leaves_eq]
    simp
  rw [hlines, insertIdx_middle _ _ _ _ hi]
  exact hrep.trans (by simp [withLine])

/-- The new line is counted in all nodes above. -/
theorem addCounts_withLine (h : t.Ok lev) (hnode : lev node = some 1)
    (hu : Under t.links node 1 (t.depth + 1) t.root pre post) (hi : i ≤ (t.children node).length)
    (hlt : t.size + 1 < 2 ^ 26) :
    ∃ c, (t.withLine node i).addCounts (t.depth + 1) (some node) =
        some { t.withLine node i with count := c } ∧
      { t.withLine node i with count := c }.Inv (update lev t.next (some 0)) ∧
      { t.withLine node i with count := c }.Filled (update lev t.next (some 0)) (some node) 0 1 := by
  have hlev {p l} (hp : update lev t.next (some 0) p = some (l + 1)) :
      p ≠ t.next ∧ lev p = some (l + 1) := by
    by_cases hpn : p = t.next
    · simp [hpn] at hp
    · exact ⟨hpn, by rwa [lev_update_ne hpn] at hp⟩
  have hne {p l} (hp : lev p = some l) : p ≠ t.next := ne_of_lev hp h.lev_next
  have hadds := t.withLine_adds node i
  have hshape := hadds.shape h.shape hnode h.lev_next hi (by simp)
  have hcounts := hadds.sumsTo (u := lineCount t.count) h.shape h.counts hnode h.lev_next hi
    (by simp) fun _ _ _ => rfl
  have hmarks := hadds.sumsTo (u := markCount (t.withLine node i).nMarks) h.shape h.marks hnode
    h.lev_next hi (by simp) fun l p hp => by simp [withLine, hne hp]
  obtain ⟨c, hexec, hcounts'⟩ := addCounts_spec (t := t.withLine node i) (k := 0) hshape
    (t.depth + 1) t.count hcounts (by rw [lev_update_ne (hne hnode), hnode])
    (fun {p l} hp _ => by
      have := h.count_le (hlev hp).2
      exact (Nat.succ_le_succ this).trans_lt hlt) (Nat.le_refl _)
  let t₁ : BTree := { t.withLine node i with count := c }
  have hlinked : t₁.Linked (update lev t.next (some 0)) := by
    refine ⟨hshape, fun {p l} hp => h.isBottom (hlev hp).2, fun {p l} hp => ?_⟩
    show p < t.next + 1
    by_cases hpn : p = t.next
    · exact hpn ▸ Nat.lt_succ_self _
    · rw [lev_update_ne hpn] at hp
      exact Nat.lt_succ_of_lt (h.fresh hp)
  refine ⟨c, hexec, ⟨hlinked, hcounts', ?_, ?_, ?_⟩, fun p l hp => ?_⟩
  · have hzero : markCount (t.withLine node i).nMarks 0 t.next = 0 := by simp [withLine]
    rw [hzero] at hmarks
    exact hmarks.of_zero
  · have hlen := length_leaves hlinked hcounts' hshape.root_lev
    have hlines : leaves t₁.links (t.depth + 1) t.root =
        t.lines.insertIdx (pre.length + i) t.next := withLine_lines h.toLinked hnode hu hi
    have hin : pre.length + i ≤ t.lines.length := by
      rw [lines, hu.leaves_eq]
      simp
      omega
    have hsize := h.length_lines
    have hlen' : (t.size + 1 : ℤ) = c t.root := by
      rw [← hsize]
      simpa [hlines, List.length_insertIdx, hin] using hlen
    show c t.root < 2 ^ 26
    omega
  · simpa [withLine, hne h.shape.root_lev] using h.nMarks_lt
  · obtain ⟨hpn, hp⟩ := hlev hp
    obtain ⟨hmin, hmax⟩ := h.filled p l hp
    have hsame : t₁.minChildren p l = t.minChildren p l := rfl
    simp only [reduceCtorEq, if_false, add_zero] at hmin hmax
    by_cases hpnode : p = node
    · subst hpnode
      have hlen : (t₁.children p).length = (t.children p).length + 1 := by
        simp [t₁, withLine, List.length_insertIdx, hi]
      rw [if_pos rfl, if_pos rfl, hlen]
      exact ⟨hmin.trans (Nat.le_succ _), Nat.succ_lt_succ hmax⟩
    · have hnp : some node ≠ some p := by simpa using Ne.symm hpnode
      have hlen : t₁.children p = t.children p := by simp [t₁, withLine, hpnode]
      rw [if_neg hnp, if_neg hnp, hlen]
      exact ⟨hmin, hmax⟩

end WithLine

/-- The steps of `_moo_text_btree_insert`. -/
theorem insert_eq {index : ℕ} {node : Ptr} {i : ℕ} {c : Ptr → ℕ} (hi : index ≤ t.size)
    (hdesc : { t with stamp := guint (t.stamp + 1) }.descend
      (fun index count => decide (count < index)) (t.depth + 1) t.root index = some (node, i))
    (hlen : (t.children node).length < nodeMaxCapacity) (hi' : i ≤ (t.children node).length)
    (hadd : ({ t with stamp := guint (t.stamp + 1) }.withLine node i).addCounts (t.depth + 1)
      (some node) = some { { t with stamp := guint (t.stamp + 1) }.withLine node i with count := c })
    (hsplit : { { t with stamp := guint (t.stamp + 1) }.withLine node i with
      count := c }.splitNodes (t.depth + 2) node = some t')
    (hget : t'.getData index = some t.next) : t.insert index = some (t', t.next) := by
  simp only [withLine] at hadd hsplit
  simp only [insert, gAssert_true, show index ≤ t.count t.root from hi, hdesc,
    Option.bind_eq_bind, Option.bind_some, btDataNew, nodeInsert, hlen, hi', setChildren,
    Option.pure_def, hadd, hsplit, hget]

/-- `_moo_text_btree_insert` inserts a line and does not fail. -/
theorem insert_spec (h : t.Ok lev) {index : ℕ} (hi : index ≤ t.size) (hlt : t.size + 1 < 2 ^ 26) :
    ∃ t' d lev', t.insert index = some (t', d) ∧ t'.Ok lev' ∧ Inserts t t' index d := by
  let t₀ : BTree := { t with stamp := guint (t.stamp + 1) }
  have h₀ : t₀.Ok lev := h.of_stamp _
  obtain ⟨node, i, pre, post, hdesc, hu, hpre, hi'⟩ := descend_spec h₀.toLinked h₀.counts
    h₀.filled.nonEmpty 1 h₀.shape.root_lev (Nat.lt_succ_of_le hi)
  replace hi' := Nat.le_of_lt_succ hi'
  have hnode := hu.lev_bottom h₀.shape h₀.shape.root_lev
  have hmax := (h₀.filled node 0 hnode).2
  rw [if_neg (by simp), add_zero] at hmax
  obtain ⟨c, hexec, hinv, hfilled⟩ := addCounts_withLine h₀ hnode hu hi' hlt
  have hnode' : update lev t₀.next (some 0) node = some (0 + 1) := by
    rw [lev_update_ne (ne_of_lev hnode h₀.lev_next), hnode]
  obtain ⟨t', lev', hsplit, hinv', hfilled', hkeeps⟩ := splitNodes_spec (t.depth + 2) hinv hfilled
    hnode' (Nat.succ_pos _) fun _ => le_rfl
  have hlines : t'.lines = t.lines.insertIdx index t.next := by
    rw [hkeeps.lines, ← hpre]
    exact withLine_lines h₀.toLinked hnode hu hi'
  have hsize : t.lines.length = t.size := h.length_lines
  have hok : t'.Ok lev' := ⟨hinv', hfilled'⟩
  have hle : index ≤ t.lines.length := hsize ▸ hi
  have hget : t'.getData index = some t.next := by
    rw [hok.getData_eq, hlines, List.getElem?_insertIdx_self, if_pos hle]
    rw [← hok.length_lines, hlines, List.length_insertIdx, if_pos hle]
    exact Nat.lt_succ_of_le hle
  have hnew : t.next ∉ t.lines := fun hmem => by
    simpa [h.lev_next] using h.mem_lines_iff.1 hmem
  have hmem {x : Ptr} (hx : x ∈ t.lines) : x ∈ t'.lines := by
    rw [hlines, List.mem_insertIdx hle]
    exact .inr hx
  have hnext : t.next ≠ t.root := (ne_of_lev h.shape.root_lev h.lev_next).symm
  refine ⟨t', t.next, lev', ?_, hok, hnew, hlines, fun x hx => ?_, ?_, hkeeps.marks, hkeeps.mark,
    hkeeps.stamp⟩
  · exact insert_eq hi hdesc hmax hi' hexec hsplit hget
  · rw [hkeeps.nMarks x (by rw [← hkeeps.lines]; exact hmem hx)]
    exact Function.update_of_ne (ne_of_lev (h.mem_lines_iff.1 hx) h.lev_next) _ _
  · rw [hkeeps.nMarks _ (by rw [← hkeeps.lines, hlines, List.mem_insertIdx hle]; exact .inl rfl)]
    exact Function.update_self _ _ _

end BTree

end Medit
