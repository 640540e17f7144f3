import Medit.TextBtree.Split

/-!
# Refilling nodes

One round of the loop in `_moo_text_btree_delete` takes a child from a neighbour of a node that
has too few, or joins the two; in the second case the parent may have too few afterwards. A root
with one child that is not a bottom node gives way to it.
-/

namespace Medit

open Function (update)
open LevelTree

namespace BTree

variable {t t' : BTree} {lev : Ptr → Option ℕ}

theorem nodeRemove_eq {node d : Ptr} (hd : d ∈ t.children node) :
    t.nodeRemove node d = some (t.setChildren node ((t.children node).erase d)) := by
  have hpos : 0 < (t.children node).length := List.length_pos_of_mem hd
  obtain ⟨i, hi⟩ := Option.isSome_iff_exists.1 (List.isSome_idxOf?.2 hd)
  have hi' : t.nodeGetIndex node d = some i := hi
  simp [nodeRemove, gAssert_true, hpos, hi', List.erase_eq_eraseIdx, hi]

section Neighbours

variable {x y q : Ptr} {k : ℕ} {A B : List Ptr}

/-- Children divided anew between neighbours keep the invariant and the lines. -/
theorem Inv.redistribute (h : t.Inv lev) (hx : lev x = some (k + 1)) (hy : lev y = some (k + 1))
    (hxq : t.parent x = some q) (hq : t.children q = A ++ x :: y :: B)
    (d : Redistributes t.links t'.links x y) (hroot : t'.root = t.root)
    (hdepth : t'.depth = t.depth) (hbot : t'.isBottom = t.isBottom) (hnext : t'.next = t.next)
    (hcx : (t'.count x : ℤ) = ((t'.children x).map (lineCount t.count k)).sum)
    (hcy : (t'.count y : ℤ) = ((t'.children y).map (lineCount t.count k)).sum)
    (hc : ∀ p, p ≠ x → p ≠ y → t'.count p = t.count p)
    (hmx : (t'.nMarks x : ℤ) = ((t'.children x).map (markCount t.nMarks k)).sum)
    (hmy : (t'.nMarks y : ℤ) = ((t'.children y).map (markCount t.nMarks k)).sum)
    (hm : ∀ p, p ≠ x → p ≠ y → t'.nMarks p = t.nMarks p) :
    t'.Inv lev ∧ t'.lines = t.lines := by
  have hrootx : t.root ≠ x := by
    rintro rfl
    have := h.shape.root_parent
    simp [hxq] at this
  have hrooty : t.root ≠ y := by
    rintro rfl
    have := (h.shape.child (h.shape.of_parent hx hxq).1 (c := t.root) (by simp [hq])).2
    simp [h.shape.root_parent] at this
  have hshape := d.shape h.shape hx hy hxq hq
  refine ⟨⟨⟨?_, fun {p l} hp => ?_, fun {p l} hp => ?_⟩, ?_, ?_, ?_, ?_⟩, ?_⟩
  · rwa [hroot, hdepth]
  · rw [hbot]
    exact h.isBottom hp
  · rw [hnext]
    exact h.fresh hp
  · exact d.sumsTo h.shape hx hy hxq hq h.counts hcx hcy fun l p _ hp hp' => by
      cases l <;> simp [hc p hp hp']
  · exact d.sumsTo h.shape hx hy hxq hq h.marks hmx hmy fun l p _ hp hp' => by
      simp [hm p hp hp']
  · rw [hroot, hc _ hrootx hrooty]
    exact h.count_lt
  · rw [hroot, hm _ hrootx hrooty]
    exact h.nMarks_lt
  · rw [lines, lines, hroot, hdepth]
    exact d.leaves_eq h.shape hx hy hxq hq h.shape.root_lev hrootx hrooty

/-- The sum over neighbours is at most the parent's. -/
theorem Inv.neighbours_count (h : t.Inv lev) (hlq : lev q = some (k + 2))
    (hq : t.children q = A ++ x :: y :: B) : t.count x + t.count y < 2 ^ 26 := by
  have hsum := h.counts q (k + 1) hlq
  have hfun : lineCount t.count (k + 1) = fun p => ((t.count p : ℕ) : ℤ) := rfl
  rw [hfun, ← natCast_sum_map, if_neg (by simp), add_zero, lineCount_succ, Nat.cast_inj,
    links_children, hq] at hsum
  simp only [List.map_append, List.map_cons, List.sum_append, List.sum_cons] at hsum
  have := h.count_bound hlq
  omega

end Neighbours

/-! ## A child from a neighbour -/

/-- `child` has gone from `sib` to `node`. -/
def borrowed (t : BTree) (node sib child : Ptr) (index : ℕ) : BTree :=
  let lines := if t.isBottom node then 1 else t.count child
  { t with
    parent := update t.parent child (some node)
    children := update (update t.children node ((t.children node).insertIdx index child))
      sib ((t.children sib).erase child)
    nMarks := update (update t.nMarks node (t.nMarks node + t.nMarks child))
      sib (t.nMarks sib - t.nMarks child)
    count := update (update t.count node (t.count node + lines)) sib (t.count sib - lines) }

section Borrow

variable {node sib child q : Ptr} {k index : ℕ}

/-- What a child brings to `count`. -/
theorem lines_child (h : t.Linked lev) (hnode : lev node = some (k + 1)) :
    ((if t.isBottom node then 1 else t.count child : ℕ) : ℤ) = lineCount t.count k child := by
  have hbot := h.isBottom hnode
  cases k with
  | zero => simp [hbot]
  | succ k =>
    have : t.isBottom node = false := by simpa using hbot
    simp [this]

theorem Inv.child_le (h : t.Inv lev) (hsib : lev sib = some (k + 1))
    (hchild : child ∈ t.children sib) :
    lineCount t.count k child ≤ t.count sib ∧ t.nMarks child ≤ t.nMarks sib := by
  have hcounts := h.counts sib k hsib
  have hmarks := h.marks sib k hsib
  have hsum {f : Ptr → ℤ} (hf : ∀ p, 0 ≤ f p) : f child ≤ ((t.children sib).map f).sum :=
    List.single_le_sum (fun x hx => by
      obtain ⟨p, -, rfl⟩ := List.mem_map.1 hx
      exact hf p) _ (List.mem_map_of_mem hchild)
  have h1 := hsum (f := lineCount t.count k) fun p => by cases k <;> simp
  have h2 := hsum (f := markCount t.nMarks k) fun p => by simp
  simp only [links_children, reduceCtorEq, if_false, add_zero, lineCount_succ,
    markCount_apply] at hcounts hmarks h2
  omega

theorem borrowChild_eq (h : t.Inv lev) (hnode : lev node = some (k + 1))
    (hsib : lev sib = some (k + 1)) (hne : node ≠ sib) (hchild : child ∈ t.children sib)
    (hlen : (t.children node).length < nodeMaxCapacity) (hi : index ≤ (t.children node).length)
    (hsum : t.count node + t.count sib < 2 ^ 26) :
    t.borrowChild node sib child index = some (t.borrowed node sib child index) := by
  have hlc : lev child = some k := (h.shape.child hsib hchild).1
  have hcn : child ≠ node := by
    rintro rfl
    simp [hlc] at hnode
  obtain ⟨hle, hmle⟩ := h.child_le hsib hchild
  rw [← lines_child h.toLinked hnode, Nat.cast_le] at hle
  have hmn := h.nMarks_bound hnode
  have hms := h.nMarks_bound hsib
  have hg1 : guint ((t.nMarks node : ℤ) + t.nMarks child) = t.nMarks node + t.nMarks child := by
    exact_mod_cast guint_eq (by omega)
  have hg2 := guint_sub hmle (by omega)
  have hmem : child ∈ (t.setChildren node ((t.children node).insertIdx index child)).children sib := by
    simpa [setChildren, hne.symm] using hchild
  simp only [borrowChild, nodeInsert, gAssert_true, hlen, hi, Option.bind_eq_bind,
    Option.bind_some, Option.pure_def, nodeRemove_eq hmem]
  cases hb : t.isBottom node
  · have hc1 : countBits ((t.count node : ℤ) + t.count child) = t.count node + t.count child := by
      rw [hb] at hle
      exact_mod_cast countBits_eq (by simp at hle; omega)
    have hc2 : countBits ((t.count sib : ℤ) - t.count child) = t.count sib - t.count child :=
      countBits_sub (by simpa [hb] using hle) (by omega)
    simp [setChildren, setParent, setNMarks, setCount, hb, borrowed, hne.symm, hcn, hg1, hg2,
      hc1, hc2]
  · have hc1 : countBits ((t.count node : ℤ) + 1) = t.count node + 1 := by
      rw [hb] at hle
      exact_mod_cast countBits_eq (by simp at hle; omega)
    have hc2 : countBits ((t.count sib : ℤ) - 1) = t.count sib - 1 := by
      exact_mod_cast countBits_sub (m := 1) (by simpa [hb] using hle) (by omega)
    simp [setChildren, setParent, setNMarks, setCount, hb, borrowed, hne.symm, hcn, hg1, hg2,
      hc1, hc2]

/-- `sib` is next to `node` below `q` and `child` is the end of its children that faces `node`,
where it goes to `index`. -/
inductive Faces (t : BTree) (q node sib child : Ptr) : ℕ → Prop
  | left {A B cs} : t.children q = A ++ sib :: node :: B → t.children sib = cs ++ [child] →
      Faces t q node sib child 0
  | right {A B cs} : t.children q = A ++ node :: sib :: B → t.children sib = child :: cs →
      Faces t q node sib child (t.children node).length

namespace Faces

variable (hf : t.Faces q node sib child index)
include hf

theorem mem_child : child ∈ t.children sib := by
  cases hf with
  | left _ hs => simp [hs]
  | right _ hs => simp [hs]

theorem mem_sib : sib ∈ t.children q := by
  cases hf with
  | left hq _ => simp [hq]
  | right hq _ => simp [hq]

theorem index_le : index ≤ (t.children node).length := by
  cases hf with
  | left _ _ => exact Nat.zero_le _
  | right _ _ => exact le_rfl

theorem ne (h : t.Inv lev) (hlq : lev q = some (k + 1)) : node ≠ sib := by
  cases hf with
  | left hq _ => exact (h.shape.neighbours hlq hq).1.symm
  | right hq _ => exact (h.shape.neighbours hlq hq).1

theorem count_lt (h : t.Inv lev) (hlq : lev q = some (k + 2)) :
    t.count node + t.count sib < 2 ^ 26 := by
  cases hf with
  | left hq _ =>
    rw [add_comm]
    exact h.neighbours_count hlq hq
  | right hq _ => exact h.neighbours_count hlq hq

end Faces

/-- A child that moves to a neighbour keeps the invariant and the lines. -/
theorem borrowed_inv (h : t.Inv lev) (hnode : lev node = some (k + 1))
    (hpar : t.parent node = some q) (hf : t.Faces q node sib child index) :
    (t.borrowed node sib child index).Inv lev ∧
      (t.borrowed node sib child index).lines = t.lines := by
  obtain ⟨hlq, -⟩ := h.shape.of_parent hnode hpar
  obtain ⟨hsib, hspar⟩ := h.shape.child hlq hf.mem_sib
  have hne := hf.ne h hlq
  have hchild := hf.mem_child
  have hi := hf.index_le
  have hnds : (t.children sib).Nodup := h.shape.nodup hsib
  obtain ⟨hlc, hcpar⟩ := h.shape.child hsib hchild
  obtain ⟨hle, hmle⟩ := h.child_le hsib hchild
  set t' := t.borrowed node sib child index with ht'
  have hnch : t'.children node = (t.children node).insertIdx index child := by
    simp [ht', borrowed, hne]
  have hsch : t'.children sib = (t.children sib).erase child := by simp [ht', borrowed]
  have hch : ∀ p, p ≠ node → p ≠ sib → t'.children p = t.children p := fun p hp hp' => by
    simp [ht', borrowed, hp, hp']
  have hnpar : ∀ c ∈ t'.children node, t'.parent c = some node := fun c hc => by
    rw [hnch, List.mem_insertIdx hi] at hc
    by_cases hcc : c = child
    · simp [ht', borrowed, hcc]
    · simpa [ht', borrowed, hcc] using (h.shape.child hnode (hc.resolve_left hcc)).2
  have hspar' : ∀ c ∈ t'.children sib, t'.parent c = some sib := fun c hc => by
    rw [hsch, hnds.mem_erase_iff] at hc
    simpa [ht', borrowed, hc.1] using (h.shape.child hsib hc.2).2
  have hparne : ∀ c, c ∉ t.children sib → t'.parent c = t.parent c := fun c hc => by
    have : c ≠ child := by
      rintro rfl
      exact hc hchild
    simp [ht', borrowed, this]
  have hsumN (f : Ptr → ℤ) :
      ((t'.children node).map f).sum = ((t.children node).map f).sum + f child := by
    rw [hnch, ((List.perm_insertIdx child _ hi).map f).sum_eq, List.map_cons, List.sum_cons,
      add_comm]
  have hsumS (f : Ptr → ℤ) :
      ((t'.children sib).map f).sum = ((t.children sib).map f).sum - f child := by
    rw [hsch, sum_map_erase f hchild]
  have hcountN := h.counts node k hnode
  have hcountS := h.counts sib k hsib
  have hmarkN := h.marks node k hnode
  have hmarkS := h.marks sib k hsib
  rw [← lines_child h.toLinked hnode] at hle
  simp only [links_children, reduceCtorEq, if_false, add_zero, lineCount_succ,
    markCount_apply] at hcountN hcountS hmarkN hmarkS
  have hcN : (t'.count node : ℤ) = ((t'.children node).map (lineCount t.count k)).sum := by
    rw [hsumN, hcountN, ← lines_child h.toLinked hnode]
    simp [ht', borrowed, hne]
  have hcS : (t'.count sib : ℤ) = ((t'.children sib).map (lineCount t.count k)).sum := by
    rw [hsumS, hcountS, ← lines_child h.toLinked hnode]
    simp only [ht', borrowed, Function.update_self]
    exact Nat.cast_sub (by exact_mod_cast hle)
  have hc : ∀ p, p ≠ node → p ≠ sib → t'.count p = t.count p := fun p hp hp' => by
    simp [ht', borrowed, hp, hp']
  have hmN : (t'.nMarks node : ℤ) = ((t'.children node).map (markCount t.nMarks k)).sum := by
    rw [hsumN, hmarkN]
    simp [ht', borrowed, hne]
  have hmS : (t'.nMarks sib : ℤ) = ((t'.children sib).map (markCount t.nMarks k)).sum := by
    rw [hsumS, hmarkS]
    simp only [ht', borrowed, Function.update_self]
    exact Nat.cast_sub hmle
  have hm : ∀ p, p ≠ node → p ≠ sib → t'.nMarks p = t.nMarks p := fun p hp hp' => by
    simp [ht', borrowed, hp, hp']
  cases hf with
  | @left A B cs hq hs =>
    have happ : t'.children sib ++ t'.children node = t.children sib ++ t.children node := by
      have hnot : child ∉ cs := fun hmem => by
        rw [hs, List.nodup_append] at hnds
        exact hnds.2.2 child hmem child (by simp) rfl
      rw [hnch, hsch, hs, List.erase_append_right _ hnot]
      simp
    exact h.redistribute hsib hnode hspar hq
      ⟨happ, fun p hp hp' => hch p hp' hp, hspar', hnpar, fun c hc _ => hparne c hc⟩
      rfl rfl rfl rfl hcS hcN (fun p hp hp' => hc p hp' hp) hmS hmN fun p hp hp' => hm p hp' hp
  | right hq hs =>
    have happ : t'.children node ++ t'.children sib = t.children node ++ t.children sib := by
      simp [hnch, hsch, hs]
    exact h.redistribute hnode hsib hpar hq
      ⟨happ, hch, hnpar, hspar', fun c _ hc => hparne c hc⟩
      rfl rfl rfl rfl hcN hcS hc hmN hmS hm

end Borrow

/-! ## Two neighbours joined -/

/-- `x` has the children of its right neighbour `y`, which is gone. -/
def merged (t : BTree) (q x y : Ptr) : BTree :=
  { t with
    parent := fun c => if c ∈ t.children y then some x else t.parent c
    children := update (update t.children x (t.children x ++ t.children y))
      q ((t.children q).erase y)
    nMarks := update t.nMarks x (t.nMarks x + t.nMarks y)
    count := update t.count x (t.count x + t.count y) }

section Merge

variable {x y q : Ptr} {k : ℕ} {A B : List Ptr}

theorem mergeNodes_eq (h : t.Inv lev) (hx : lev x = some (k + 1)) (hxq : t.parent x = some q)
    (hq : t.children q = A ++ x :: y :: B)
    (hlen : (t.children x).length + (t.children y).length < nodeMaxCapacity) :
    t.mergeNodes q A.length = some (t.merged q x y) := by
  obtain ⟨hlq, -⟩ := h.shape.of_parent hx hxq
  have hly : lev y = some (k + 1) := (h.shape.child hlq (c := y) (by simp [hq])).1
  obtain ⟨hxy, -⟩ := h.shape.neighbours hlq hq
  have hqx : q ≠ x := by
    rintro rfl
    simp [hx] at hlq
  have hlt : A.length + 1 < (t.children q).length := by simp [hq]
  have hgetx : (t.children q)[A.length]? = some x := by simp [hq]
  have hgety : (t.children q)[A.length + 1]? = some y := by simp [hq]
  have hmem : y ∈ t.children q := by simp [hq]
  have hcount := h.neighbours_count hlq hq
  have hmx := h.nMarks_bound hx
  have hmy := h.nMarks_bound hly
  have hc : countBits ((t.count x : ℤ) + t.count y) = t.count x + t.count y := by
    exact_mod_cast countBits_eq hcount
  have hm : guint ((t.nMarks x : ℤ) + t.nMarks y) = t.nMarks x + t.nMarks y := by
    exact_mod_cast guint_eq (by omega)
  simp only [mergeNodes, gAssert_true, hlt, hgetx, hgety, hlen, Option.bind_eq_bind,
    Option.bind_some, setParents_eq, setChildren, setCount, setNMarks, Function.update_of_ne hxy.symm]
  rw [nodeRemove_eq (by simpa [hqx] using hmem)]
  simp [merged, setChildren, hc, hm, hqx]

/-- Joining two nodes keeps the invariant and the lines. -/
theorem merged_inv (h : t.Inv lev) (hx : lev x = some (k + 1)) (hxq : t.parent x = some q)
    (hq : t.children q = A ++ x :: y :: B) :
    (t.merged q x y).Inv (update lev y none) ∧ (t.merged q x y).lines = t.lines := by
  obtain ⟨hlq, -⟩ := h.shape.of_parent hx hxq
  obtain ⟨hly, hyq⟩ := h.shape.child hlq (c := y) (by simp [hq])
  rw [links_parent] at hyq
  obtain ⟨hxy, -⟩ := h.shape.neighbours hlq hq
  have hqx : q ≠ x := by
    rintro rfl
    simp [hx] at hlq
  have hqy : q ≠ y := by
    rintro rfl
    simp [hly] at hlq
  have hkids {c p : Ptr} {l : ℕ} (hp : lev p = some (l + 1)) (hc : c ∈ t.children p)
      (hpy : p ≠ y) : c ∉ t.children y := fun hcy => by
    have h1 := (h.shape.child hp hc).2
    have h2 := (h.shape.child hly hcy).2
    exact hpy (by simpa [h1] using h2)
  -- first `y` gives all its children to `x`, then the empty `y` is taken out
  let t₁ : BTree := { t with
    parent := fun c => if c ∈ t.children y then some x else t.parent c
    children := update (update t.children x (t.children x ++ t.children y)) y []
    nMarks := update (update t.nMarks x (t.nMarks x + t.nMarks y)) y 0
    count := update (update t.count x (t.count x + t.count y)) y 0 }
  have hcx := h.counts x k hx
  have hcy := h.counts y k hly
  have hmx := h.marks x k hx
  have hmy := h.marks y k hly
  simp only [links_children, reduceCtorEq, if_false, add_zero, lineCount_succ,
    markCount_apply] at hcx hcy hmx hmy
  have hd : Redistributes t.links t₁.links x y := by
    refine ⟨by simp [t₁, hxy], fun p hp hp' => by simp [t₁, hp, hp'], fun c hc => ?_,
      by simp [t₁], fun c _ hc => by simp [t₁] at hc ⊢; simp [hc]⟩
    by_cases hcy : c ∈ t.children y
    · simp [t₁, hcy]
    · have hc : c ∈ t.children x := by simpa [t₁, hxy, hcy] using hc
      simpa [t₁, hcy] using (h.shape.child hx hc).2
  obtain ⟨h₁, hlines⟩ := h.redistribute hx hly hxq hq hd rfl rfl rfl rfl
    (by simp [t₁, hxy, hcx, hcy]) (by simp [t₁]) (fun p hp hp' => by simp [t₁, hp, hp'])
    (by simp [t₁, hxy, hmx, hmy]) (by simp [t₁]) fun p hp hp' => by simp [t₁, hp, hp']
  have hyq₁ : t₁.links.parent y = some q := by
    have : y ∉ t.children y := hkids hlq (by simp [hq]) hqy
    simp [t₁, this, hyq]
  have hempty : t₁.links.children y = [] := by simp [t₁]
  have hr : Removes t₁.links (t.merged q x y).links q y := by
    refine ⟨by simp [t₁, merged, hqx, hqy], fun p hp hp' => ?_, fun _ _ => rfl⟩
    simp [t₁, merged, hp, hp', Function.update_apply]
  have hshape := hr.shape h₁.shape hly hyq₁ fun _ => hempty
  have hrooty : t.root ≠ y := by
    rintro rfl
    have := h.shape.root_parent
    simp [hyq] at this
  have hcounts := hr.sumsTo (u := lineCount (t.merged q x y).count) h₁.shape h₁.counts hly hyq₁
    fun l p _ hp => by cases l <;> simp [t₁, merged, hp, Function.update_apply]
  have hmarks := hr.sumsTo (u := markCount (t.merged q x y).nMarks) h₁.shape h₁.marks hly hyq₁
    fun l p _ hp => by simp [t₁, merged, hp, Function.update_apply]
  have hne {p l} (hp : update lev y none p = some l) : lev p = some l := (of_lev_update_none hp).2
  have hroot : (t.merged q x y).count t.root = t₁.count t.root ∧
      (t.merged q x y).nMarks t.root = t₁.nMarks t.root := by
    simp [t₁, merged, hrooty]
  refine ⟨⟨⟨hshape, fun hp => h.isBottom (hne hp), fun hp => h.fresh (hne hp)⟩, ?_, ?_, ?_, ?_⟩, ?_⟩
  · have hzero : -lineCount t₁.count (k + 1) y = 0 := by simp [t₁]
    rw [hzero] at hcounts
    exact hcounts.of_zero
  · have hzero : -markCount t₁.nMarks (k + 1) y = 0 := by simp [t₁]
    rw [hzero] at hmarks
    exact hmarks.of_zero
  · exact hroot.1 ▸ h₁.count_lt
  · exact hroot.2 ▸ h₁.nMarks_lt
  · rw [← hlines]
    exact hr.leaves_eq h₁.shape hly hyq₁ (Nat.succ_ne_zero k) hempty h.shape.root_lev hrooty

end Merge

/-! ## One round of the loop -/

section Round

variable {cur sib child q : Ptr} {k index : ℕ}

/-- What the numbers of children are when only `cur` may have one too few. -/
theorem Filled.short (hfill : t.Filled lev (some cur) 1 0) {p : Ptr} {l : ℕ}
    (hp : lev p = some (l + 1)) :
    (p ≠ cur → t.minChildren p l ≤ (t.children p).length) ∧
      t.minChildren p l ≤ (t.children p).length + 1 ∧ (t.children p).length < nodeMaxCapacity := by
  obtain ⟨hmin, hmax⟩ := hfill p l hp
  by_cases hpc : p = cur
  · subst hpc
    simpa using And.intro hmin hmax
  · have hcp : some cur ≠ some p := by simpa using Ne.symm hpc
    rw [if_neg hcp, add_zero] at hmin hmax
    exact ⟨fun _ => hmin, hmin.trans (Nat.le_succ _), hmax⟩

theorem Filled.of_short (hfill : ∀ p l, lev p = some (l + 1) →
    (p ≠ cur → t.minChildren p l ≤ (t.children p).length) ∧
      t.minChildren p l ≤ (t.children p).length + 1 ∧ (t.children p).length < nodeMaxCapacity) :
    t.Filled lev (some cur) 1 0 := by
  intro p l hp
  obtain ⟨hne, hmin, hmax⟩ := hfill p l hp
  by_cases hpc : some cur = some p
  · simpa [hpc] using And.intro hmin hmax
  · simpa [hpc] using And.intro (hne fun hpc' => hpc (by rw [hpc'])) hmax

theorem two_le_minChildren (p : Ptr) (l : ℕ) : 2 ≤ t.minChildren p (l + 1) := by
  unfold minChildren
  rw [if_neg (Nat.succ_ne_zero l)]
  split_ifs <;> decide

theorem minChildren_le (p : Ptr) (l : ℕ) : t.minChildren p l ≤ nodeMinCapacity := by
  unfold minChildren
  split_ifs <;> decide

theorem root_ne_child (h : t.Linked lev) {c : Ptr} (hq : t.parent c = some q) : c ≠ t.root := by
  rintro rfl
  have := h.shape.root_parent
  simp [hq] at this

/-- A neighbour with children to spare puts everything in order. -/
theorem borrowed_filled (h : t.Inv lev) (hfill : t.Filled lev (some cur) 1 0)
    (hcur : lev cur = some (k + 1)) (hpar : t.parent cur = some q)
    (hf : t.Faces q cur sib child index) (hlt : (t.children cur).length < nodeMinCapacity)
    (hsib : nodeMinCapacity < (t.children sib).length) :
    ((t.borrowed cur sib child index).children cur).length = nodeMinCapacity ∧
      (t.borrowed cur sib child index).Filled lev (some q) 1 0 := by
  obtain ⟨hlq, -⟩ := h.shape.of_parent hcur hpar
  obtain ⟨hls, hspar⟩ := h.shape.child hlq hf.mem_sib
  have hne := hf.ne h hlq
  set t' := t.borrowed cur sib child index with ht'
  have hlenc : (t'.children cur).length = (t.children cur).length + 1 := by
    simp [ht', borrowed, hne, List.length_insertIdx, hf.index_le]
  have hlens : (t'.children sib).length = (t.children sib).length - 1 := by
    simp [ht', borrowed, List.length_erase_of_mem hf.mem_child]
  have hmin := (hfill.short hcur).2.1
  rw [minChildren_of_ne (root_ne_child h.toLinked hpar)] at hmin
  have hroot (p : Ptr) (l : ℕ) : t'.minChildren p l = t.minChildren p l := rfl
  refine ⟨by omega, Filled.of_short fun p l hp => ?_⟩
  obtain ⟨hmin', hmin'', hmax⟩ := hfill.short hp
  rw [hroot]
  by_cases hpc : p = cur
  · subst hpc
    rw [minChildren_of_ne (root_ne_child h.toLinked hpar), hlenc]
    simp only [nodeMaxCapacity, nodeMinCapacity] at *
    omega
  by_cases hps : p = sib
  · subst hps
    rw [minChildren_of_ne (root_ne_child h.toLinked hspar), hlens]
    omega
  · have : t'.children p = t.children p := by simp [ht', borrowed, hpc, hps]
    rw [this]
    exact ⟨fun _ => hmin' hpc, hmin'', hmax⟩

/-- After two neighbours are joined only the parent may have too few children. -/
theorem merged_filled {x y : Ptr} {A B : List Ptr} (h : t.Inv lev)
    (hfill : t.Filled lev (some cur) 1 0) (hx : lev x = some (k + 1)) (hxq : t.parent x = some q)
    (hq : t.children q = A ++ x :: y :: B) (hcur : cur = x ∨ cur = y)
    (hlen : (t.children x).length + (t.children y).length < nodeMaxCapacity) :
    (t.merged q x y).Filled (update lev y none) (some q) 1 0 := by
  obtain ⟨hlq, -⟩ := h.shape.of_parent hx hxq
  obtain ⟨hly, hyq⟩ := h.shape.child hlq (c := y) (by simp [hq])
  rw [links_parent] at hyq
  have hxy := (h.shape.neighbours hlq hq).1
  have hqx : q ≠ x := by
    rintro rfl
    simp [hx] at hlq
  have hqy : q ≠ y := by
    rintro rfl
    simp [hly] at hlq
  have hmem : y ∈ t.children q := by simp [hq]
  have hlenx : ((t.merged q x y).children x).length =
      (t.children x).length + (t.children y).length := by simp [merged, hqx.symm]
  have hlenq : ((t.merged q x y).children q).length = (t.children q).length - 1 := by
    simp [merged, List.length_erase_of_mem hmem]
  have hroot (p : Ptr) (l : ℕ) : (t.merged q x y).minChildren p l = t.minChildren p l := rfl
  refine Filled.of_short fun p l hp => ?_
  obtain ⟨hpy, hp⟩ := of_lev_update_none hp
  obtain ⟨hmin, hmin', hmax⟩ := hfill.short hp
  rw [hroot]
  by_cases hpx : p = x
  · subst hpx
    have hmin1 := (hfill.short hx).2.1
    have hmin2 := (hfill.short hly).2.1
    rw [minChildren_of_ne (root_ne_child h.toLinked hxq)] at hmin1
    rw [minChildren_of_ne (root_ne_child h.toLinked hyq)] at hmin2
    rw [minChildren_of_ne (root_ne_child h.toLinked hxq), hlenx]
    simp only [nodeMaxCapacity, nodeMinCapacity] at *
    omega
  by_cases hpq : p = q
  · subst hpq
    have hpc : p ≠ cur := by
      rintro rfl
      exact hcur.elim hqx hqy
    have := hmin hpc
    rw [hlenq]
    exact ⟨fun hp => absurd rfl hp, by omega, by omega⟩
  · have hpc : p ≠ cur := by
      rintro rfl
      exact hcur.elim hpx hpy
    have : (t.merged q x y).children p = t.children p := by simp [merged, hpx, hpq]
    rw [this]
    exact ⟨fun _ => hmin hpc, hmin', hmax⟩

/-- One round: only the parent may have too few children afterwards. -/
theorem refillRound_spec (h : t.Inv lev) (hfill : t.Filled lev (some cur) 1 0)
    (hcur : lev cur = some (k + 1)) (hpar : t.parent cur = some q)
    (hlt : (t.children cur).length < nodeMinCapacity) :
    ∃ i t' lev', t.nodeGetIndex q cur = some i ∧
      (if i ≠ 0 then t.refillFromLeft q cur i else t.refillFromRight q cur) = some t' ∧
      t'.Inv lev' ∧ t'.Filled lev' (some q) 1 0 ∧ Keeps t t' ∧ lev' q = some (k + 2) ∧
      t'.depth = t.depth := by
  obtain ⟨hlq, hmem⟩ := h.shape.of_parent hcur hpar
  rw [links_children] at hmem
  have hqcur : q ≠ cur := by
    rintro rfl
    simp [hcur] at hlq
  have hline {p x : Ptr} {l : ℕ} (hp : lev p = some (l + 1)) (hx : x ∈ t.lines) : x ≠ p := by
    rintro rfl
    simp [h.mem_lines_iff.1 hx] at hp
  have hcurle := (hfill.short hcur).2.2
  obtain ⟨A, B, hq⟩ := List.append_of_mem hmem
  have hnd : (t.children q).Nodup := h.shape.nodup hlq
  have hA : cur ∉ A := fun hA => by
    rw [hq, List.nodup_append] at hnd
    exact hnd.2.2 cur hA cur (by simp) rfl
  have hidx : t.nodeGetIndex q cur = some A.length := by
    rw [nodeGetIndex, hq, idxOf?_append_cons hA]
  -- both ways a child can come from the neighbour `sib`, and both ways to join with it
  have hborrow {sib child : Ptr} {index : ℕ} (hf : t.Faces q cur sib child index)
      (hsib : nodeMinCapacity < (t.children sib).length) :
      t.borrowChild cur sib child index = some (t.borrowed cur sib child index) ∧
        Keeps t (t.borrowed cur sib child index) := by
    have hls := (h.shape.child hlq hf.mem_sib).1
    refine ⟨borrowChild_eq h hcur hls (hf.ne h hlq) hf.mem_child hcurle hf.index_le
      (hf.count_lt h hlq), (borrowed_inv h hcur hpar hf).2, fun x hx => ?_, rfl, rfl, rfl⟩
    simp [borrowed, hline hcur hx, hline hls hx]
  have hkeepsm {x y : Ptr} {A B : List Ptr} (hx : lev x = some (k + 1)) (hxq : t.parent x = some q)
      (hq : t.children q = A ++ x :: y :: B) : Keeps t (t.merged q x y) :=
    ⟨(merged_inv h hx hxq hq).2, fun z hz => by simp [merged, hline hx hz], rfl, rfl, rfl⟩
  have hlevq {y : Ptr} (hy : lev y = some (k + 1)) : update lev y none q = some (k + 2) := by
    rw [lev_update_ne, hlq]
    rintro rfl
    simp [hy] at hlq
  rcases List.eq_nil_or_concat A with rfl | ⟨A, sib, rfl⟩
  · -- the first child: its neighbour is on the right
    obtain _ | ⟨sib, B⟩ := B
    · have hone : (t.children q).length = 1 := by simp [hq]
      exact absurd ((two_le_minChildren q k).trans ((hfill.short hlq).1 hqcur)) (by simp [hone])
    have hq : t.children q = [] ++ cur :: sib :: B := hq
    obtain ⟨hls, hspar⟩ := h.shape.child hlq (c := sib) (by simp [hq])
    have hget : (t.children q)[1]? = some sib := by simp [hq]
    by_cases hsib : nodeMinCapacity < (t.children sib).length
    · obtain ⟨child, cs, hs⟩ := List.exists_cons_of_length_pos ((Nat.zero_le _).trans_lt hsib)
      have hf : t.Faces q cur sib child (t.children cur).length := .right hq hs
      obtain ⟨hexec, hkeeps⟩ := hborrow hf hsib
      obtain ⟨hlen, hfilled⟩ := borrowed_filled h hfill hcur hpar hf hlt hsib
      have hget0 : (t.children sib)[0]? = some child := by simp [hs]
      exact ⟨0, _, lev, hidx, by simp [refillFromRight, hget, hsib, hget0, hexec, hlen, gAssert_true],
        (borrowed_inv h hcur hpar hf).1, hfilled, hkeeps, hlq, rfl⟩
    · have hlen : (t.children cur).length + (t.children sib).length < nodeMaxCapacity := by
        simp only [nodeMinCapacity, nodeMaxCapacity] at *
        omega
      have hexec := mergeNodes_eq h hcur hpar hq hlen
      exact ⟨0, _, _, hidx, by simpa [refillFromRight, hget, hsib] using hexec,
        (merged_inv h hcur hpar hq).1, merged_filled h hfill hcur hpar hq (.inl rfl) hlen,
        hkeepsm hcur hpar hq, hlevq hls, rfl⟩
  · -- any other child: its neighbour is on the left
    have hq : t.children q = A ++ sib :: cur :: B := by simp [hq]
    have hidx : t.nodeGetIndex q cur = some (A.length + 1) := by simpa using hidx
    obtain ⟨hls, hspar⟩ := h.shape.child hlq (c := sib) (by simp [hq])
    rw [links_parent] at hspar
    have hget : (t.children q)[A.length]? = some sib := by simp [hq]
    by_cases hsib : nodeMinCapacity < (t.children sib).length
    · obtain ⟨cs, child, hs⟩ : ∃ cs child, t.children sib = cs ++ [child] := by
        rcases List.eq_nil_or_concat (t.children sib) with hnil | ⟨cs, child, hs⟩
        · simp [hnil] at hsib
        · exact ⟨cs, child, by simpa using hs⟩
      have hf : t.Faces q cur sib child 0 := .left hq hs
      obtain ⟨hexec, hkeeps⟩ := hborrow hf hsib
      obtain ⟨-, hfilled⟩ := borrowed_filled h hfill hcur hpar hf hlt hsib
      have hgetl : (t.children sib)[(t.children sib).length - 1]? = some child := by simp [hs]
      exact ⟨_, _, lev, hidx, by simp [refillFromLeft, hget, hsib, hgetl, hexec],
        (borrowed_inv h hcur hpar hf).1, hfilled, hkeeps, hlq, rfl⟩
    · have hlen : (t.children sib).length + (t.children cur).length < nodeMaxCapacity := by
        simp only [nodeMinCapacity, nodeMaxCapacity] at *
        omega
      have hexec := mergeNodes_eq h hls hspar hq hlen
      exact ⟨_, _, _, hidx, by simpa [refillFromLeft, hget, hsib] using hexec,
        (merged_inv h hls hspar hq).1, merged_filled h hfill hls hspar hq (.inr rfl) hlen,
        hkeepsm hls hspar hq, hlevq hcur, rfl⟩

end Round

/-! ## The root -/

/-- A root with one child gives way to it. -/
theorem shrinkRoot_spec (h : t.Inv lev) {c : Ptr} {d : ℕ} (hdepth : t.depth = d + 1)
    (hfill : t.Filled lev (some t.root) 1 0) (hc : t.children t.root = [c]) :
    (t.shrinkRoot c).Inv (update lev t.root none) ∧
      (t.shrinkRoot c).Filled (update lev t.root none) none 0 0 ∧ Keeps t (t.shrinkRoot c) := by
  have hshape := h.shape
  rw [hdepth] at hshape
  have hs : Shrinks t.links (t.shrinkRoot c).links t.root c :=
    ⟨hc, fun _ _ => rfl, by simp [shrinkRoot, setParent], fun p hp _ => by
      simp [shrinkRoot, setParent, hp]⟩
  obtain ⟨hlc, hcpar⟩ := hs.lev_child hshape
  rw [links_parent] at hcpar
  have hcr := root_ne_child h.toLinked hcpar
  have hne {p l} (hp : update lev t.root none p = some l) : p ≠ t.root ∧ lev p = some l :=
    of_lev_update_none hp
  have hdep : (t.shrinkRoot c).depth + 1 = d + 1 := by simp [shrinkRoot, setParent, hdepth]
  have hcounts : (t.count c : ℤ) = t.count t.root := by
    have := h.counts t.root _ hshape.root_lev
    simpa [hc] using this
  have hmarks : (t.nMarks c : ℤ) = t.nMarks t.root := by
    have := h.marks t.root _ hshape.root_lev
    simpa [hc] using this
  refine ⟨⟨⟨?_, fun hp => h.isBottom (hne hp).2, fun hp => h.fresh (hne hp).2⟩,
    hs.sumsTo hshape h.counts fun _ _ _ _ => rfl, hs.sumsTo hshape h.marks fun _ _ _ _ => rfl,
    ?_, ?_⟩, fun p l hp => ?_, ?_, fun _ _ => rfl, rfl, rfl, rfl⟩
  · rw [hdep]
    exact hs.shape hshape
  · have := h.count_lt
    show t.count c < 2 ^ 26
    omega
  · have := h.nMarks_lt
    show t.nMarks c < 2 ^ 31
    omega
  · obtain ⟨hpr, hp⟩ := hne hp
    obtain ⟨hmin, -, hmax⟩ := hfill.short hp
    have hmin := hmin hpr
    rw [minChildren_of_ne hpr] at hmin
    have hch : (t.shrinkRoot c).children p = t.children p := rfl
    simpa [hch] using And.intro ((minChildren_le p l).trans hmin) hmax
  · rw [lines, hdep, lines, hdepth]
    exact hs.leaves_root hshape

/-- Refilling from the bottom up ends with all nodes in order. -/
theorem refillNodes_spec (fuel : ℕ) {cur : Ptr} {k : ℕ} (h : t.Inv lev)
    (hfill : t.Filled lev (some cur) 1 0) (hcur : lev cur = some (k + 1))
    (hne : t.children cur ≠ []) (hfuel : t.depth + 1 ≤ fuel + k) :
    ∃ t' lev', t.refillNodes fuel cur = some t' ∧ t'.Inv lev' ∧ t'.Filled lev' none 0 0 ∧
      Keeps t t' := by
  induction fuel generalizing t lev cur k with
  | zero =>
    have := h.shape.lev_le hcur
    omega
  | succ fuel ih =>
    have hother (hmin : t.minChildren cur k ≤ (t.children cur).length) : t.Filled lev none 0 0 := by
      intro p l hp
      obtain ⟨hne', -, hmax⟩ := hfill.short hp
      by_cases hpc : p = cur
      · subst hpc
        obtain rfl : k = l := by simpa [hcur] using hp
        simpa using And.intro hmin hmax
      · simpa using And.intro (hne' hpc) hmax
    have hpos := List.length_pos_iff.2 hne
    by_cases hlt : (t.children cur).length < nodeMinCapacity
    · by_cases hroot : cur = t.root
      · subst hroot
        obtain rfl : t.depth = k := by simpa [h.shape.root_lev] using hcur
        have hpar : t.parent t.root = none := h.shape.root_parent
        have hbot := h.isBottom hcur
        by_cases hstop : 1 < (t.children t.root).length ∨ t.isBottom t.root = true
        · refine ⟨t, lev, by simp [refillNodes, hlt, hpar, hstop], h, hother ?_, Keeps.refl t⟩
          rw [minChildren_root]
          split_ifs with hz
          · exact hpos
          · exact hstop.resolve_right fun hb => hz (hbot.1 hb)
        · obtain ⟨hone, hnb⟩ := not_or.1 hstop
          obtain ⟨c, hc⟩ := List.length_eq_one_iff.1 (Nat.le_antisymm (Nat.le_of_not_lt hone) hpos)
          obtain ⟨d, hd⟩ := Nat.exists_eq_succ_of_ne_zero fun hz => hnb (hbot.2 hz)
          obtain ⟨hinv, hfilled, hkeeps⟩ := shrinkRoot_spec h hd hfill hc
          refine ⟨_, _, ?_, hinv, hfilled, hkeeps⟩
          simp [refillNodes, hpar, hnb, hc, nodeMinCapacity]
      · obtain ⟨q, hq, hlq, -⟩ := h.shape.parent hcur hroot
        rw [links_parent] at hq
        have hqc : q ≠ cur := by
          rintro rfl
          simp [hcur] at hlq
        have htwo := (two_le_minChildren q k).trans ((hfill.short hlq).1 hqc)
        have hone : (t.children q).length ≠ 1 := by omega
        obtain ⟨i, s, lev', hidx, hexec, hinv, hfilled, hkeeps, hlq', hdepth⟩ :=
          refillRound_spec h hfill hcur hq hlt
        have hsne : s.children q ≠ [] := by
          have := (two_le_minChildren q k).trans (hfilled.short hlq').2.1
          exact List.ne_nil_of_length_pos (by omega)
        obtain ⟨t', lev'', heq, hinv', hfilled', hkeeps'⟩ := ih hinv hfilled hlq' hsne (by omega)
        refine ⟨t', lev'', ?_, hinv', hfilled', hkeeps.trans hkeeps'⟩
        simp only [refillNodes, if_pos hlt, hq, if_neg hone, hidx, Option.bind_eq_bind,
          Option.bind_some]
        split_ifs at hexec ⊢ <;> simp [hexec, heq]
    · exact ⟨t, lev, by simp [refillNodes, hlt], h,
        hother ((minChildren_le cur k).trans (Nat.le_of_not_lt hlt)), Keeps.refl t⟩

end BTree

end Medit
