import Medit.TextBtree.Insert
import Medit.TextBtree.Refill

/-!
# Deleting a line

`_moo_text_btree_delete` takes a line out of its bottom node, takes it and its marks off the
numbers of every node above, lets its marks go and refills the nodes with too few children.
-/

namespace Medit

open Function (update)
open LevelTree

namespace BTree

variable {t t' : BTree} {lev : Ptr → Option ℕ}

/-- `t'` is without the line `index` of `t`, the marks of which are put before `removed`. -/
structure Deletes (t t' : BTree) (index : ℕ) (removed removed' : List MarkPtr) (d : Ptr) :
    Prop where
  line : t.lines[index]? = some d
  lines : t'.lines = t.lines.eraseIdx index
  nMarks : ∀ x ∈ t'.lines, t'.nMarks x = t.nMarks x
  marks : t'.marks = t.marks
  mark : t'.mark = fun m =>
    if m ∈ t.marksOf d then (t.mark m).setLine none (-1) 0 else t.mark m
  removed : removed' = (t.marksOf d).reverse ++ removed
  stamp : t'.stamp = guint (t.stamp + 1)

/-- What `bt_data_free` does with the marks. -/
theorem btDataFree_eq {d : Ptr} (h : t.nMarks d ≤ (t.marks d).length) (removed : List MarkPtr) :
    t.btDataFree d removed =
      some ({ t with mark := fun m =>
        if m ∈ t.marksOf d then (t.mark m).setLine none (-1) 0 else t.mark m },
        (t.marksOf d).reverse ++ removed) := by
  have key (ms : List MarkPtr) : ∀ (f : MarkPtr → LineMark) (removed : List MarkPtr),
      ms.foldl (fun (s : BTree × List MarkPtr) m =>
        ({ s.1 with mark := update s.1.mark m ((s.1.mark m).setLine none (-1) 0) }, m :: s.2))
        ({ t with mark := f }, removed) =
      ({ t with mark := fun m => if m ∈ ms then (f m).setLine none (-1) 0 else f m },
        ms.reverse ++ removed) := by
    induction ms with
    | nil => intro f removed; simp
    | cons m ms ih =>
      intro f removed
      rw [List.foldl_cons, ih]
      simp only [List.reverse_cons, List.append_assoc, List.singleton_append, Prod.mk.injEq,
        and_true]
      congr 1
      funext x
      by_cases hxm : x = m <;> by_cases hx : x ∈ ms <;> simp [hxm, hx, LineMark.setLine]
  rw [btDataFree, gAssert_true h]
  exact congrArg some (key _ t.mark removed)

section Without

variable {node d : Ptr} {pre post : List Ptr}

/-- The bottom node `node` without the line `d`. -/
def withoutLine (t : BTree) (node d : Ptr) : BTree :=
  t.setChildren node ((t.children node).erase d)

theorem withoutLine_removes (t : BTree) (node d : Ptr) :
    Removes t.links (t.withoutLine node d).links node d :=
  ⟨by simp [withoutLine, setChildren], fun p hp _ => by simp [withoutLine, setChildren, hp],
    fun _ _ => rfl⟩

theorem withoutLine_lines (h : t.Inv lev) (hnode : lev node = some 1) (hd : d ∈ t.children node) :
    (t.withoutLine node d).lines = t.lines.erase d := by
  obtain ⟨pre, post, hu⟩ := h.shape.under_root hnode
  have hrep := hu.leaves_replace (M := (t.withoutLine node d).links) h.shape hnode
    (fun p hp => by simp [withoutLine, setChildren, hp]) h.shape.root_lev
  have hlines : t.lines = pre ++ t.children node ++ post := by
    rw [lines, hu.leaves_eq]
    simp
  have hnd := h.nodup_lines
  rw [hlines, List.append_assoc, List.nodup_append] at hnd
  have hpre : d ∉ pre := fun hmem => hnd.2.2 d hmem d (by simp [hd]) rfl
  rw [hlines, List.append_assoc, List.erase_append_right _ hpre, List.erase_append_left _ hd,
    ← List.append_assoc]
  exact hrep.trans (by simp [withoutLine, setChildren])

/-- The line and its marks are taken off the numbers of all nodes above. -/
theorem dropCounts_withoutLine (h : t.Ok lev) (hnode : lev node = some 1)
    (hd : d ∈ t.children node) :
    ∃ c m, (t.withoutLine node d).dropCounts d (t.depth + 1) (some node) =
        some { t.withoutLine node d with count := c, nMarks := m } ∧
      { t.withoutLine node d with count := c, nMarks := m }.Inv (update lev d none) ∧
      (∀ x, lev x = some 0 → m x = t.nMarks x) := by
  obtain ⟨hld, hdpar⟩ := h.shape.child hnode hd
  have hne {p l} (hp : update lev d none p = some l) : p ≠ d ∧ lev p = some l :=
    of_lev_update_none hp
  have hrem := t.withoutLine_removes node d
  have hshape := hrem.shape h.shape hld hdpar (by simp)
  have hcounts := hrem.sumsTo (u := lineCount t.count) h.shape h.counts hld hdpar
    fun _ _ _ _ => rfl
  have hmarks := hrem.sumsTo (u := markCount t.nMarks) h.shape h.marks hld hdpar
    fun _ _ _ _ => rfl
  have hnd : node ≠ d := by
    rintro rfl
    simp [hld] at hnode
  obtain ⟨c, m, hexec, hcounts', hmarks', hsame⟩ := dropCounts_spec (t := t.withoutLine node d)
    (k := 0) hshape (t.depth + 1) t.count t.nMarks (d := d) (by simp) hcounts hmarks
    (by rw [lev_update_ne hnd, hnode])
    (fun hp _ => ⟨h.count_bound (hne hp).2, (h.nMarks_bound (hne hp).2).trans (by norm_num)⟩)
    (Nat.le_refl _)
  let t₁ : BTree := { t.withoutLine node d with count := c, nMarks := m }
  have hlinked : t₁.Linked (update lev d none) :=
    ⟨hshape, fun hp => h.isBottom (hne hp).2, fun hp => h.fresh (hne hp).2⟩
  have hlen := length_leaves hlinked hcounts' hshape.root_lev
  have hlines : leaves (t.withoutLine node d).links (t.depth + 1) t.root = t.lines.erase d :=
    withoutLine_lines h.toInv hnode hd
  have hle : c t.root ≤ t.size := by
    have hsub := List.length_erase_le (a := d) (l := t.lines)
    rw [h.length_lines] at hsub
    have hlen' : ((t.lines.erase d).length : ℤ) = c t.root := by
      rw [← hlines]
      exact hlen
    omega
  have hline {x : Ptr} (hx : lev x = some 0) : m x = t.nMarks x :=
    hsame x fun l hl => by simp [(hne hl).2] at hx
  have hroot : (m t.root : ℤ) = t.nMarks t.root - t.nMarks d := by
    have hsum := hmarks'.sum_leaves hshape hshape.root_lev
    have hdl : d ∈ t.lines := h.mem_lines_iff.2 hld
    have hmap : (t.lines.erase d).map (markCount m 0) = (t.lines.erase d).map (markCount t.nMarks 0) :=
      List.map_congr_left fun x hx => by
        simp [hline (h.mem_lines_iff.1 (List.mem_of_mem_erase hx))]
    rw [hlines, hmap, sum_map_erase _ hdl] at hsum
    have hsum' : (t.lines.map (markCount t.nMarks 0)).sum = t.nMarks t.root :=
      h.marks.sum_leaves h.shape h.shape.root_lev
    rw [hsum'] at hsum
    exact hsum.symm
  refine ⟨c, m, hexec, ⟨hlinked, hcounts', hmarks', hle.trans_lt h.count_lt, ?_⟩, fun x hx => hline hx⟩
  have hlt := h.nMarks_lt
  show m t.root < 2 ^ 31
  omega

end Without

/-- The steps of `_moo_text_btree_delete`. -/
theorem delete_eq {index : ℕ} {node d : Ptr} {c m : Ptr → ℕ} {removed : List MarkPtr}
    (hone : 1 < t.size) (hi : index < t.size)
    (hget : { t with stamp := guint (t.stamp + 1) }.getData index = some d)
    (hpar : t.parent d = some node) (hcount : t.count node = (t.children node).length)
    (hmem : d ∈ t.children node)
    (hdrop : ({ t with stamp := guint (t.stamp + 1) }.withoutLine node d).dropCounts d (t.depth + 1)
      (some node) = some { { t with stamp := guint (t.stamp + 1) }.withoutLine node d with
        count := c, nMarks := m })
    (hm : m d = t.nMarks d) (hmarks : t.nMarks d ≤ (t.marks d).length)
    (hrefill : { { t with stamp := guint (t.stamp + 1) }.withoutLine node d with
      count := c, nMarks := m, mark := fun x =>
        if x ∈ t.marksOf d then (t.mark x).setLine none (-1) 0 else t.mark x }.refillNodes
      (t.depth + 2) node = some t') :
    t.delete index removed = some (t', (t.marksOf d).reverse ++ removed) := by
  have hremove := nodeRemove_eq (t := { t with stamp := guint (t.stamp + 1) }) hmem
  have hfreed : ({ { t with stamp := guint (t.stamp + 1) }.withoutLine node d with
      count := c, nMarks := m } : BTree).marksOf d = t.marksOf d := by
    show (t.marks d).take (m d) = (t.marks d).take (t.nMarks d)
    rw [hm]
  have hfree := btDataFree_eq (t := { { t with stamp := guint (t.stamp + 1) }.withoutLine node d with
    count := c, nMarks := m }) (d := d) (by rw [← hm] at hmarks; exact hmarks) removed
  rw [hfreed] at hfree
  simp only [withoutLine, setChildren] at hdrop hrefill hfree hremove
  simp only [delete, gAssert_true, show 1 < t.count t.root from hone,
    show index < t.count t.root from hi, hget, Option.bind_eq_bind, Option.bind_some, hpar, hcount,
    hremove, hdrop, hfree, hrefill, Option.pure_def]

/-- `_moo_text_btree_delete` deletes a line and does not fail. -/
theorem delete_spec (h : t.Ok lev) {index : ℕ} (hone : 1 < t.size) (hi : index < t.size)
    (hmarks : ∀ x ∈ t.lines, t.nMarks x ≤ (t.marks x).length) (removed : List MarkPtr) :
    ∃ t' removed' d lev', t.delete index removed = some (t', removed') ∧ t'.Ok lev' ∧
      Deletes t t' index removed removed' d := by
  let t₀ : BTree := { t with stamp := guint (t.stamp + 1) }
  have h₀ : t₀.Ok lev := h.of_stamp _
  have hlt : index < t.lines.length := by rwa [h.length_lines]
  obtain ⟨d, hd⟩ : ∃ d, t.lines[index]? = some d := ⟨_, List.getElem?_eq_getElem hlt⟩
  have hget : t₀.getData index = some d := (h₀.getData_eq hi).trans hd
  have hmem : d ∈ t.lines := List.mem_of_getElem? hd
  have hld := h.mem_lines_iff.1 hmem
  have hdroot : d ≠ t.root := by
    rintro rfl
    simp [h.shape.root_lev] at hld
  obtain ⟨node, hpar, hnode, hdn⟩ := h.shape.parent hld hdroot
  rw [links_children] at hdn
  have hcount : t.count node = (t.children node).length := by
    have := h.length_leaves_node hnode
    simpa using this.symm
  obtain ⟨c, m, hdrop, hinv, hm⟩ := dropCounts_withoutLine h₀ hnode hdn
  let t₁ : BTree := { t₀.withoutLine node d with
    count := c
    nMarks := m
    mark := fun x => if x ∈ t.marksOf d then (t.mark x).setLine none (-1) 0 else t.mark x }
  have h₁ : t₁.Inv (update lev d none) :=
    ⟨⟨hinv.shape, hinv.isBottom, hinv.fresh⟩, hinv.counts, hinv.marks, hinv.count_lt,
      hinv.nMarks_lt⟩
  have hlines₁ : t₁.lines = t.lines.eraseIdx index := by
    have herase : t.lines.erase d = t.lines.eraseIdx index := by
      rw [List.getElem?_eq_getElem hlt, Option.some.injEq] at hd
      rw [← hd, h.nodup_lines.erase_getElem]
    exact (withoutLine_lines h₀.toInv hnode hdn).trans herase
  have hlen₁ : (t₁.children node).length = (t.children node).length - 1 := by
    simp [t₁, t₀, withoutLine, setChildren, List.length_erase_of_mem hdn]
  have hfill₁ : t₁.Filled (update lev d none) (some node) 1 0 := by
    intro p l hp
    obtain ⟨hpd, hp⟩ := of_lev_update_none hp
    obtain ⟨hmin, hmax⟩ := h.filled p l hp
    simp only [reduceCtorEq, if_false, add_zero] at hmin hmax
    have hsame : t₁.minChildren p l = t.minChildren p l := rfl
    by_cases hpn : p = node
    · subst hpn
      rw [hsame, hlen₁]
      simp only [if_true, add_zero]
      omega
    · have hnp : some node ≠ some p := by simpa using Ne.symm hpn
      have hch : t₁.children p = t.children p := by
        simp [t₁, t₀, withoutLine, setChildren, hpn]
      simpa [hnp, hsame, hch] using And.intro hmin hmax
  have hne₁ : t₁.children node ≠ [] := by
    refine List.ne_nil_of_length_pos ?_
    by_cases hroot : node = t.root
    · have : 1 < t.count node := hroot ▸ hone
      omega
    · have hmin := (h.filled node 0 hnode).1
      rw [minChildren_of_ne hroot] at hmin
      simp only [nodeMinCapacity, reduceCtorEq, if_false, add_zero] at hmin
      omega
  have hnd : node ≠ d := by
    rintro rfl
    simp [hld] at hnode
  obtain ⟨t', lev', hrefill, hinv', hfill', hkeeps⟩ := refillNodes_spec (t.depth + 2) h₁ hfill₁
    (by rw [lev_update_ne hnd, hnode]) hne₁ (by show t.depth + 1 ≤ _; omega)
  refine ⟨t', _, d, lev', delete_eq hone hi hget hpar hcount hdn hdrop (hm d hld) (hmarks d hmem)
      hrefill,
    ⟨hinv', hfill'⟩, hd, hkeeps.lines.trans hlines₁, fun x hx => ?_, hkeeps.marks, hkeeps.mark, rfl,
    hkeeps.stamp⟩
  rw [hkeeps.lines] at hx
  rw [hkeeps.nMarks x hx]
  exact hm x (of_lev_update_none (h₁.mem_lines_iff.1 hx)).2

end BTree

end Medit
