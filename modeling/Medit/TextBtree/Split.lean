import Mathlib.Data.List.TakeDrop
import Medit.TextBtree.Loops

/-!
# Splitting full nodes

One round of the loop in `_moo_text_btree_insert` moves the upper half of a full node to a new
neighbour; the parent may then be full itself. A full root first gets a new root above it.
-/

namespace Medit

open Function (update)
open LevelTree

theorem idxOf?_append_cons {α : Type*} [DecidableEq α] {A B : List α} {x : α} (h : x ∉ A) :
    (A ++ x :: B).idxOf? x = some A.length := by
  induction A with
  | nil => simp [List.idxOf?_cons]
  | cons a A ih =>
    have ha : a ≠ x := fun hax => h (by simp [hax])
    simp [List.idxOf?_cons, ha, ih fun hx => h (List.mem_cons_of_mem _ hx)]

namespace BTree

variable {t t' : BTree} {lev : Ptr → Option ℕ}

/-- Nothing about the lines has changed. -/
structure Keeps (t t' : BTree) : Prop where
  lines : t'.lines = t.lines
  nMarks : ∀ x ∈ t.lines, t'.nMarks x = t.nMarks x
  marks : t'.marks = t.marks
  mark : t'.mark = t.mark
  stamp : t'.stamp = t.stamp

theorem Keeps.refl (t : BTree) : Keeps t t := ⟨rfl, fun _ _ => rfl, rfl, rfl, rfl⟩

theorem Keeps.trans {t'' : BTree} (h : Keeps t t') (h' : Keeps t' t'') : Keeps t t'' :=
  ⟨h'.lines.trans h.lines, fun x hx => (h'.nMarks x (h.lines ▸ hx)).trans (h.nMarks x hx),
    h'.marks.trans h.marks, h'.mark.trans h.mark, h'.stamp.trans h.stamp⟩

theorem setParents_eq (t : BTree) (cs : List Ptr) (p : Ptr) :
    t.setParents cs p = { t with parent := fun c => if c ∈ cs then some p else t.parent c } := by
  induction cs generalizing t with
  | nil => rfl
  | cons c cs ih =>
    have hcons : t.setParents (c :: cs) p = (t.setParent c (some p)).setParents cs p := rfl
    rw [hcons, ih]
    simp only [setParent]
    congr 1
    funext x
    by_cases hxc : x = c <;> by_cases hxs : x ∈ cs <;> simp [hxc, hxs]

theorem sumMarks_eq {p : Ptr} {n : ℕ} (h : ((t.children p).map t.nMarks).sum = n)
    (hn : n < 2 ^ 32) : t.sumMarks p = { t with nMarks := update t.nMarks p n } := by
  rw [sumMarks, setNMarks, h, guint_eq hn]

/-- `node` and its new right neighbour after a split, with the given `n_marks`. -/
def halved (t : BTree) (q node : Ptr) (i : ℕ) (nMarks : Ptr → ℕ) : BTree :=
  { t with
    parent := fun c =>
      if c ∈ (t.children node).drop nodeMinCapacity then some t.next
      else update t.parent t.next (some q) c
    children := update (update (update (update t.children t.next [])
      q ((t.children q).insertIdx i t.next))
      t.next ((t.children node).drop nodeMinCapacity))
      node ((t.children node).take nodeMinCapacity)
    isBottom := update t.isBottom t.next (t.isBottom node)
    count := update (update t.count t.next (countBits (t.upperCount node)))
      node (countBits ((t.count node : ℤ) - t.upperCount node))
    nMarks := nMarks
    next := t.next + 1 }

section Split

variable {node q : Ptr} {k : ℕ} {A B : List Ptr}

/-- What `splitChild` computes. -/
theorem splitChild_eq (h : t.Inv lev) (hnode : lev node = some (k + 1))
    (hpar : t.parent node = some q) (hq : t.children q = A ++ node :: B)
    (hlenq : (t.children q).length < nodeMaxCapacity)
    (hfull : (t.children node).length = nodeMaxCapacity) :
    ∃ m, t.splitChild node = some (t.halved q node (A.length + 1) m) ∧
      (m node : ℤ) = (((t.children node).take nodeMinCapacity).map (markCount t.nMarks k)).sum ∧
      (m t.next : ℤ) = (((t.children node).drop nodeMinCapacity).map (markCount t.nMarks k)).sum ∧
      ∀ p, p ≠ node → p ≠ t.next → m p = t.nMarks p := by
  obtain ⟨hlevq, -⟩ := h.shape.of_parent hnode hpar
  have hnd := h.shape.nodup hlevq
  simp only [links_children] at hnd
  rw [hq, List.nodup_middle, List.nodup_cons, List.mem_append, not_or] at hnd
  have hnn : node ≠ t.next := ne_of_lev hnode h.lev_next
  have hqn : q ≠ t.next := ne_of_lev hlevq h.lev_next
  have hnq : node ≠ q := by
    rintro rfl
    simp [hnode] at hlevq
  have hnewq : t.next ∉ A ++ node :: B := by
    rw [← hq]
    intro hmem
    simpa [h.lev_next] using (h.shape.child hlevq hmem).1
  have hnewA : t.next ∉ A ++ [node] := fun hmem => hnewq (by simp at hmem ⊢; tauto)
  have hidx : (t.children q).idxOf? node = some A.length := by
    rw [hq, idxOf?_append_cons hnd.1.1]
  have hins : (t.children q).insertIdx (A.length + 1) t.next = A ++ node :: t.next :: B := by
    have := insertIdx_append (A ++ [node]) B t.next
    simpa [hq] using this
  have hidx' : (A ++ node :: t.next :: B).idxOf? node = some A.length :=
    idxOf?_append_cons hnd.1.1
  have hidxn : (A ++ node :: t.next :: B).idxOf? t.next = some (A.length + 1) := by
    have := idxOf?_append_cons (B := B) hnewA
    simpa using this
  have hlen : A.length + 1 ≤ (t.children q).length := by simp [hq]
  have hkids {c : Ptr} (hc : c ∈ t.children node) : lev c = some k := (h.shape.child hnode hc).1
  have hmem_ne {c : Ptr} (hc : c ∈ t.children node) : c ≠ node ∧ c ≠ t.next := by
    refine ⟨?_, ne_of_lev (hkids hc) h.lev_next⟩
    rintro rfl
    simp [hkids hc] at hnode
  have hsum := h.marks node k hnode
  simp only [reduceCtorEq, if_false, add_zero, links_children, markCount_apply] at hsum
  have hbound : t.nMarks node < 2 ^ 32 := (h.nMarks_bound hnode).trans (by norm_num)
  have htd : (((t.children node).take nodeMinCapacity).map t.nMarks).sum +
      (((t.children node).drop nodeMinCapacity).map t.nMarks).sum = t.nMarks node := by
    rw [← List.sum_append, ← List.map_append, List.take_append_drop]
    have : markCount t.nMarks k = fun p => ((t.nMarks p : ℕ) : ℤ) := rfl
    rw [this, ← natCast_sum_map] at hsum
    exact_mod_cast hsum
  have hcast (cs : List Ptr) : (cs.map (markCount t.nMarks k)).sum = ((cs.map t.nMarks).sum : ℕ) :=
    (natCast_sum_map t.nMarks cs).symm
  have hmap {cs : List Ptr} (hcs : ∀ c ∈ cs, c ∈ t.children node) {m : Ptr → ℕ}
      (hm : ∀ c, c ≠ node → c ≠ t.next → m c = t.nMarks c) : cs.map m = cs.map t.nMarks :=
    List.map_congr_left fun c hc => hm c (hmem_ne (hcs c hc)).1 (hmem_ne (hcs c hc)).2
  have hlt : A.length < (t.children q).length := by simp [hq]
  have hexec : t.splitChild node =
      let s := t.halved q node (A.length + 1) (update t.nMarks t.next 0)
      if t.nMarks node ≠ 0 then some ((s.sumMarks node).sumMarks t.next) else some s := by
    simp only [splitChild, hpar, nodeGetIndex, hidx, Option.bind_eq_bind, Option.bind_some,
      gAssert_true hlt, btNodeNew, setCount, nodeInsert, Function.update_of_ne hqn, hlenq,
      gAssert_true, hlen, setChildren, Function.update_self, hins, hidx', hidxn,
      Function.update_of_ne hnq, Function.update_of_ne hnn, Option.pure_def, setParents_eq,
      Function.update_of_ne hnn.symm, halved]
  have htake : ((t.children node).take nodeMinCapacity).map (update t.nMarks t.next 0) =
      ((t.children node).take nodeMinCapacity).map t.nMarks :=
    hmap (fun c hc => List.mem_of_mem_take hc) fun c _ hc => Function.update_of_ne hc _ _
  have hdrop (n : ℕ) : ((t.children node).drop nodeMinCapacity).map
      (update (update t.nMarks t.next 0) node n) =
        ((t.children node).drop nodeMinCapacity).map t.nMarks :=
    hmap (fun c hc => List.mem_of_mem_drop hc) fun c hc hc' => by simp [hc, hc']
  rw [hexec, hcast, hcast]
  by_cases hz : t.nMarks node = 0
  · refine ⟨update t.nMarks t.next 0, by simp [hz], ?_, ?_, fun p _ hp => by simp [hp]⟩
    · rw [Function.update_of_ne hnn, hz]
      omega
    · rw [Function.update_self]
      omega
  · refine ⟨update (update (update t.nMarks t.next 0) node
      ((t.children node).take nodeMinCapacity |>.map t.nMarks).sum) t.next
      ((t.children node).drop nodeMinCapacity |>.map t.nMarks).sum, ?_, ?_, ?_, fun p hp hp' => ?_⟩
    · let a := ((t.children node).take nodeMinCapacity |>.map t.nMarks).sum
      let b := ((t.children node).drop nodeMinCapacity |>.map t.nMarks).sum
      have h1 : (t.halved q node (A.length + 1) (update t.nMarks t.next 0)).sumMarks node =
          t.halved q node (A.length + 1) (update (update t.nMarks t.next 0) node a) := by
        refine sumMarks_eq (congrArg List.sum ?_) (by omega)
        simpa only [halved, Function.update_self] using htake
      have h2 : (t.halved q node (A.length + 1)
          (update (update t.nMarks t.next 0) node a)).sumMarks t.next =
          t.halved q node (A.length + 1)
            (update (update (update t.nMarks t.next 0) node a) t.next b) := by
        refine sumMarks_eq (congrArg List.sum ?_) (by omega)
        simpa only [halved, Function.update_self, Function.update_of_ne hnn.symm] using hdrop a
      simp only [ne_eq, hz, not_false_eq_true, if_true, h1, h2, a, b]
    · simp [hnn]
    · simp
    · simp [hp, hp']

theorem upperCount_eq (h : t.Inv lev) (hnode : lev node = some (k + 1))
    (hfull : (t.children node).length = nodeMaxCapacity) :
    (t.upperCount node : ℤ) =
      (((t.children node).drop nodeMinCapacity).map (lineCount t.count k)).sum := by
  have hbot := h.isBottom hnode
  cases k with
  | zero =>
    have : lineCount t.count 0 = fun _ => (1 : ℤ) := rfl
    simp [upperCount, hbot, this, hfull, nodeMaxCapacity, nodeMinCapacity]
  | succ k =>
    have : lineCount t.count (k + 1) = fun p => ((t.count p : ℕ) : ℤ) := rfl
    rw [upperCount, if_neg (by simpa using hbot), this, natCast_sum_map]

/-- What is known of the pointers after a split. -/
structure Halves (t t' : BTree) (node q : Ptr) : Prop where
  root : t'.root = t.root
  depth : t'.depth = t.depth
  parent : t'.parent node = some q
  length_node : (t'.children node).length = nodeMinCapacity
  length_new : (t'.children t.next).length = nodeMinCapacity
  length_parent : (t'.children q).length = (t.children q).length + 1
  children_ne : ∀ p, p ≠ node → p ≠ t.next → p ≠ q → t'.children p = t.children p

/-- A split keeps the invariant and the lines. -/
theorem splitChild_spec (h : t.Inv lev) (hnode : lev node = some (k + 1))
    (hpar : t.parent node = some q) (hlenq : (t.children q).length < nodeMaxCapacity)
    (hfull : (t.children node).length = nodeMaxCapacity) :
    ∃ t', t.splitChild node = some t' ∧ t'.Inv (update lev t.next (some (k + 1))) ∧
      Keeps t t' ∧ Halves t t' node q := by
  obtain ⟨hlevq, hmem⟩ := h.shape.of_parent hnode hpar
  obtain ⟨A, B, hq⟩ := List.append_of_mem hmem
  rw [links_children] at hq
  obtain ⟨m, hexec, hmnode, hmnew, hmne⟩ := splitChild_eq h hnode hpar hq hlenq hfull
  have hnew := h.lev_next
  have hnn : node ≠ t.next := ne_of_lev hnode hnew
  have hqn : q ≠ t.next := ne_of_lev hlevq hnew
  have hnq : node ≠ q := by
    rintro rfl
    simp [hnode] at hlevq
  have hlen : A.length + 1 ≤ (t.children q).length := by simp [hq]
  have hlev {p l} (hp : lev p = some l) : p ≠ t.next := ne_of_lev hp hnew
  have hkids {c : Ptr} (hc : c ∈ t.children node) : lev c = some k := (h.shape.child hnode hc).1
  -- first an empty neighbour is added, then the children are divided
  let L₁ : Links Ptr := ⟨update (update t.children t.next []) q
    ((t.children q).insertIdx (A.length + 1) t.next), update t.parent t.next (some q)⟩
  let t' := t.halved q node (A.length + 1) m
  have hadds : Adds t.links L₁ q t.next (A.length + 1) :=
    ⟨by simp [L₁], fun p hp hp' => by simp [L₁, hp, hp'], by simp [L₁],
      fun p hp => by simp [L₁, hp]⟩
  have hL₁new : L₁.children t.next = [] := by simp [L₁, hqn.symm]
  have hL₁node : L₁.children node = t.children node := by simp [L₁, hnn, hnq]
  have hshape₁ := hadds.shape h.shape hlevq hnew hlen fun _ => hL₁new
  have hq₁ : L₁.children q = A ++ node :: t.next :: B := by
    have := insertIdx_append (A ++ [node]) B t.next
    simpa [L₁, hq] using this
  have hnode₁ : update lev t.next (some (k + 1)) node = some (k + 1) := by
    rw [lev_update_ne hnn, hnode]
  have hnew₁ : update lev t.next (some (k + 1)) t.next = some (k + 1) := by simp
  have hpar₁ : L₁.parent node = some q := by simp [L₁, hnn, hpar]
  have hredist : Redistributes L₁ t'.links node t.next := by
    refine ⟨?_, fun p hp hp' => ?_, fun c hc => ?_, fun c hc => ?_, fun c hc hc' => ?_⟩
    · simp [t', halved, hnn.symm, hL₁node, hL₁new]
    · simp [t', halved, L₁, hp, hp', Function.update_apply]
    · have hc : c ∈ (t.children node).take nodeMinCapacity := by simpa [t', halved] using hc
      have hcd : c ∉ (t.children node).drop nodeMinCapacity := by
        have hnd := h.shape.nodup hnode
        rw [links_children, ← List.take_append_drop nodeMinCapacity (t.children node),
          List.nodup_append] at hnd
        exact fun hcd => hnd.2.2 c hc c hcd rfl
      have hcl := hkids (List.mem_of_mem_take hc)
      simp only [t', halved, links_parent, if_neg hcd, Function.update_of_ne (hlev hcl)]
      exact (h.shape.child hnode (List.mem_of_mem_take hc)).2
    · have hc : c ∈ (t.children node).drop nodeMinCapacity := by
        simpa [t', halved, hnn.symm] using hc
      simp [t', halved, hc]
    · rw [hL₁node] at hc
      have hcd : c ∉ (t.children node).drop nodeMinCapacity := fun hcd =>
        hc (List.mem_of_mem_drop hcd)
      simp [t', halved, L₁, hcd]
  have hupper := upperCount_eq h hnode hfull
  have hsum := h.counts node k hnode
  simp only [reduceCtorEq, if_false, add_zero, links_children, lineCount_succ] at hsum
  rw [← List.take_append_drop nodeMinCapacity (t.children node), List.map_append,
    List.sum_append] at hsum
  have hnonneg (cs : List Ptr) : 0 ≤ (cs.map (lineCount t.count k)).sum :=
    List.sum_nonneg fun x hx => by
      obtain ⟨c, -, rfl⟩ := List.mem_map.1 hx
      cases k <;> simp
  have hbound := h.count_bound hnode
  have hle : t.upperCount node ≤ t.count node := by
    have := hnonneg ((t.children node).take nodeMinCapacity)
    omega
  have hmap {cs : List Ptr} (hcs : ∀ c ∈ cs, c ∈ t.children node) :
      cs.map (lineCount (update t.count t.next 0) k) = cs.map (lineCount t.count k) :=
    List.map_congr_left fun c hc => by
      have := hlev (hkids (hcs c hc))
      cases k <;> simp [this]
  have hcounts : SumsTo t'.links (update lev t.next (some (k + 1))) (lineCount t'.count) none 0 := by
    have hcounts₁ := hadds.sumsTo (u := lineCount (update t.count t.next 0)) h.shape h.counts
      hlevq hnew hlen (fun _ => ⟨hL₁new, by simp⟩) fun l p hp => by
        have := hlev hp
        cases l <;> simp [this]
    rw [lineCount_succ, Function.update_self, Nat.cast_zero] at hcounts₁
    refine hredist.sumsTo hshape₁ hnode₁ hnew₁ hpar₁ hq₁ hcounts₁.of_zero ?_ ?_
      fun l p _ hp hp' => ?_
    · rw [show t'.links.children node = (t.children node).take nodeMinCapacity by
          simp [t', halved], hmap fun c hc => List.mem_of_mem_take hc]
      simp only [t', halved, lineCount_succ, Function.update_self, countBits_sub hle hbound]
      omega
    · rw [show t'.links.children t.next = (t.children node).drop nodeMinCapacity by
          simp [t', halved, hnn.symm], hmap fun c hc => List.mem_of_mem_drop hc]
      simp only [t', halved, lineCount_succ, Function.update_of_ne hnn.symm, Function.update_self,
        countBits_eq (hle.trans_lt hbound)]
      exact hupper
    · cases l <;> simp [t', halved, hp, hp']
  have hmarks : SumsTo t'.links (update lev t.next (some (k + 1))) (markCount t'.nMarks) none 0 := by
    have hmap' {cs : List Ptr} (hcs : ∀ c ∈ cs, c ∈ t.children node) :
        cs.map (markCount (update t.nMarks t.next 0) k) = cs.map (markCount t.nMarks k) :=
      List.map_congr_left fun c hc => by simp [hlev (hkids (hcs c hc))]
    have hmarks₁ := hadds.sumsTo (u := markCount (update t.nMarks t.next 0)) h.shape h.marks
      hlevq hnew hlen (fun _ => ⟨hL₁new, by simp⟩) fun l p hp => by simp [hlev hp]
    rw [markCount_apply, Function.update_self, Nat.cast_zero] at hmarks₁
    refine hredist.sumsTo hshape₁ hnode₁ hnew₁ hpar₁ hq₁ hmarks₁.of_zero ?_ ?_
      fun l p _ hp hp' => ?_
    · rw [show t'.links.children node = (t.children node).take nodeMinCapacity by
          simp [t', halved], hmap' fun c hc => List.mem_of_mem_take hc]
      exact hmnode
    · rw [show t'.links.children t.next = (t.children node).drop nodeMinCapacity by
          simp [t', halved, hnn.symm], hmap' fun c hc => List.mem_of_mem_drop hc]
      exact hmnew
    · simp [t', halved, hmne p hp hp', hp']
  have hroot : t.root ≠ node := by
    rintro rfl
    have := h.shape.root_parent
    simp [hpar] at this
  have hrootlev := h.shape.root_lev
  have hrootlev₁ : update lev t.next (some (k + 1)) t.root = some (t.depth + 1) := by
    rw [lev_update_ne (hlev hrootlev), hrootlev]
  have hlines : t'.lines = t.lines := by
    rw [lines, lines, ← hadds.leaves_eq h.shape hlevq hnew hlen (by omega) hL₁new hrootlev]
    exact hredist.leaves_eq hshape₁ hnode₁ hnew₁ hpar₁ hq₁ hrootlev₁ hroot (hlev hrootlev)
  refine ⟨t', hexec, ?_, ?_, ?_⟩
  · refine ⟨⟨hredist.shape hshape₁ hnode₁ hnew₁ hpar₁ hq₁, fun {p l} hp => ?_, fun {p l} hp => ?_⟩,
      hcounts, hmarks, ?_, ?_⟩
    · by_cases hpn : p = t.next
      · subst hpn
        obtain rfl : k = l := by simpa using hp
        simpa [t', halved] using h.isBottom hnode
      · rw [lev_update_ne hpn] at hp
        simpa [t', halved, hpn] using h.isBottom hp
    · show p < t.next + 1
      by_cases hpn : p = t.next
      · exact hpn ▸ Nat.lt_succ_self _
      · rw [lev_update_ne hpn] at hp
        exact Nat.lt_succ_of_lt (h.fresh hp)
    · show t'.count t.root < 2 ^ 26
      simpa [t', halved, hroot, hlev hrootlev] using h.count_lt
    · show m t.root < 2 ^ 31
      rw [hmne _ hroot (hlev hrootlev)]
      exact h.nMarks_lt
  · refine ⟨hlines, fun x hx => hmne x ?_ (hlev (h.mem_lines_iff.1 hx)), rfl, rfl, rfl⟩
    rintro rfl
    simp [h.mem_lines_iff.1 hx] at hnode
  · refine ⟨rfl, rfl, ?_, ?_, ?_, ?_, fun p hp hp' hpq => by simp [t', halved, hp, hp', hpq]⟩
    · have hcd : node ∉ (t.children node).drop nodeMinCapacity := fun hcd => by
        simp [hkids (List.mem_of_mem_drop hcd)] at hnode
      simp [t', halved, hcd, hnn, hpar]
    · simp [t', halved, hfull, nodeMaxCapacity, nodeMinCapacity]
    · simp [t', halved, hnn.symm, hfull, nodeMaxCapacity, nodeMinCapacity]
    · simp [t', halved, hqn, hnq.symm, List.length_insertIdx, hlen]

end Split

/-! ## A new root -/

/-- A new root above the old one keeps the invariant and the lines. -/
theorem growRoot_spec (h : t.Inv lev) :
    (t.growRoot t.root).Inv (update lev t.next (some (t.depth + 2))) ∧
      Keeps t (t.growRoot t.root) := by
  have hroot := h.shape.root_lev
  have hne {p l} (hp : lev p = some l) : p ≠ t.next := ne_of_lev hp h.lev_next
  have hbits := countBits_eq h.count_lt
  have hgrows : Grows t.links (t.growRoot t.root).links t.root t.next :=
    ⟨by simp [growRoot, btNodeNew, setParent], fun p hp => by simp [growRoot, btNodeNew, setParent, hp],
      by simp [growRoot, btNodeNew, setParent],
      by simp [growRoot, btNodeNew, setParent, (hne hroot).symm],
      fun p hp hp' => by simp [growRoot, btNodeNew, setParent, hp, hp']⟩
  refine ⟨⟨⟨hgrows.shape h.shape h.lev_next, fun {p l} hp => ?_, fun {p l} hp => ?_⟩, ?_, ?_, ?_, ?_⟩,
    ⟨hgrows.leaves_root h.shape h.lev_next, fun x hx => ?_, rfl, rfl, rfl⟩⟩
  · by_cases hpn : p = t.next
    · subst hpn
      obtain rfl : t.depth + 1 = l := by simpa using hp
      simp [growRoot, btNodeNew, setParent]
    · rw [lev_update_ne hpn] at hp
      simpa [growRoot, btNodeNew, setParent, hpn] using h.isBottom hp
  · show p < t.next + 1
    by_cases hpn : p = t.next
    · exact hpn ▸ Nat.lt_succ_self _
    · rw [lev_update_ne hpn] at hp
      exact Nat.lt_succ_of_lt (h.fresh hp)
  · refine hgrows.sumsTo h.shape h.lev_next h.counts ?_ fun l p hp => ?_
    · simp [growRoot, btNodeNew, setParent, hbits]
    · cases l <;> simp [growRoot, btNodeNew, setParent, hne hp]
  · refine hgrows.sumsTo h.shape h.lev_next h.marks ?_ fun l p hp => ?_
    · simp [growRoot, btNodeNew, setParent]
    · simp [growRoot, btNodeNew, setParent, hne hp]
  · simpa [growRoot, btNodeNew, setParent, hbits] using h.count_lt
  · simpa [growRoot, btNodeNew, setParent] using h.nMarks_lt
  · simp [growRoot, btNodeNew, setParent, hne (h.mem_lines_iff.1 hx)]

/-! ## The loop -/

/-- After a split only the parent can have a child too many. -/
theorem Halves.filled {node q : Ptr} {k : ℕ} (h : t.Inv lev) (hs : Halves t t' node q)
    (hnode : lev node = some (k + 1)) (hpar : t.parent node = some q)
    (hf : ∀ p l, lev p = some (l + 1) → p ≠ node →
      (p ≠ q → t.minChildren p l ≤ (t.children p).length) ∧
      t.minChildren p l ≤ (t.children p).length + 1 ∧ (t.children p).length < nodeMaxCapacity) :
    t'.Filled (update lev t.next (some (k + 1))) (some q) 0 1 := by
  obtain ⟨hlevq, -⟩ := h.shape.of_parent hnode hpar
  have hqn : q ≠ t.next := ne_of_lev hlevq h.lev_next
  have hnn : node ≠ t.next := ne_of_lev hnode h.lev_next
  have hnq : node ≠ q := by
    rintro rfl
    simp [hnode] at hlevq
  have hroot : t.root ≠ node := by
    rintro rfl
    have := h.shape.root_parent
    simp [hpar] at this
  have hmin (p : Ptr) (l : ℕ) : t'.minChildren p l = t.minChildren p l := by
    rw [minChildren, minChildren, hs.root]
  intro p l hp
  rw [hmin]
  by_cases hpn : p = t.next
  · subst hpn
    have hroot' : t.next ≠ t.root := (ne_of_lev h.shape.root_lev h.lev_next).symm
    rw [minChildren_of_ne hroot', hs.length_new]
    simp [nodeMinCapacity, nodeMaxCapacity, hqn]
  rw [lev_update_ne hpn] at hp
  by_cases hpnode : p = node
  · subst hpnode
    rw [minChildren_of_ne hroot.symm, hs.length_node]
    simp [nodeMinCapacity, nodeMaxCapacity, hnq.symm]
  obtain ⟨hmin, hmin', hmax⟩ := hf p l hp hpnode
  by_cases hpq : p = q
  · subst hpq
    rw [hs.length_parent, if_pos rfl, if_pos rfl]
    exact ⟨hmin', Nat.succ_lt_succ hmax⟩
  · have hqp : some q ≠ some p := by simpa using Ne.symm hpq
    rw [hs.children_ne p hpnode hpn hpq, if_neg hqp, if_neg hqp]
    exact ⟨hmin hpq, hmax⟩

/-- Splitting from the bottom up ends with all nodes in order. -/
theorem splitNodes_spec (fuel : ℕ) {cur : Ptr} {k : ℕ} (h : t.Inv lev)
    (hf : t.Filled lev (some cur) 0 1) (hcur : lev cur = some (k + 1)) (hpos : 0 < fuel)
    (hfuel : (t.children cur).length = nodeMaxCapacity → t.depth + 2 ≤ fuel + k) :
    ∃ t' lev', t.splitNodes fuel cur = some t' ∧ t'.Inv lev' ∧ t'.Filled lev' none 0 0 ∧
      Keeps t t' := by
  induction fuel generalizing t lev cur k with
  | zero => exact absurd hpos (lt_irrefl _)
  | succ fuel ih =>
    by_cases hfull : (t.children cur).length = nodeMaxCapacity
    · simp only [splitNodes, if_pos hfull, splitNode]
      have hfuel := hfuel hfull
      have hother : ∀ p l, lev p = some (l + 1) → p ≠ cur →
          t.minChildren p l ≤ (t.children p).length ∧
            (t.children p).length < nodeMaxCapacity := fun p l hp hpc => by
        have hpc' : some cur ≠ some p := by simpa using Ne.symm hpc
        simpa [hpc'] using hf p l hp
      by_cases hroot : cur = t.root
      · subst hroot
        obtain rfl : t.depth = k := by simpa [h.shape.root_lev] using hcur
        have hpar : t.parent t.root = none := h.shape.root_parent
        have hne := ne_of_lev hcur h.lev_next
        obtain ⟨hg, hkeeps⟩ := growRoot_spec h
        have hlev : update lev t.next (some (t.depth + 2)) t.root = some (t.depth + 1) := by
          rw [lev_update_ne hne, hcur]
        have hgpar : (t.growRoot t.root).parent t.root = some t.next := by
          simp [growRoot, btNodeNew, setParent]
        have hgtop : (t.growRoot t.root).children t.next = [t.root] := by
          simp [growRoot, btNodeNew, setParent]
        have hgch {p : Ptr} (hp : p ≠ t.next) :
            (t.growRoot t.root).children p = t.children p := by
          simp [growRoot, btNodeNew, setParent, hp]
        have hgroot : (t.growRoot t.root).root = t.next := rfl
        obtain ⟨s, hs, hinv, hkeeps', hhalves⟩ := splitChild_spec hg hlev hgpar
          (by simp [hgtop, nodeMaxCapacity]) (by rw [hgch hne, hfull])
        have hfilled := hhalves.filled hg hlev hgpar fun p l hp hpr => by
          by_cases hpn : p = t.next
          · subst hpn
            obtain rfl : t.depth + 1 = l := by simpa using hp
            rw [← hgroot, minChildren_root]
            simp [hgroot, hgtop, nodeMaxCapacity]
          · rw [lev_update_ne hpn] at hp
            obtain ⟨hmin, hmax⟩ := hother p l hp hpr
            rw [minChildren_of_ne hpr] at hmin
            rw [minChildren_of_ne (by simpa [hgroot] using hpn), hgch hpn]
            exact ⟨fun _ => hmin, hmin.trans (Nat.le_succ _), hmax⟩
        have hlevnew : update (update lev t.next (some (t.depth + 2))) (t.growRoot t.root).next
            (some (t.depth + 1)) t.next = some (t.depth + 1 + 1) := by
          rw [lev_update_ne (by simp [growRoot, btNodeNew, setParent])]
          simp
        obtain ⟨t', lev', heq, hinv', hfilled', hkeeps''⟩ := ih hinv hfilled hlevnew (by omega)
          fun hlen => by
            rw [hhalves.length_parent, hgtop] at hlen
            simp [nodeMaxCapacity] at hlen
        refine ⟨t', lev', ?_, hinv', hfilled', (hkeeps.trans hkeeps').trans hkeeps''⟩
        simp [hpar, hs, hhalves.parent, heq]
      · obtain ⟨q, hq, hlq, -⟩ := h.shape.parent hcur hroot
        rw [links_parent] at hq
        have hqc : q ≠ cur := by
          rintro rfl
          simp [hcur] at hlq
        obtain ⟨s, hs, hinv, hkeeps, hhalves⟩ := splitChild_spec h hcur hq
          (hother q _ hlq hqc).2 hfull
        have hfilled := hhalves.filled h hcur hq fun p l hp hpc =>
          ⟨fun _ => (hother p l hp hpc).1, (hother p l hp hpc).1.trans (Nat.le_succ _),
            (hother p l hp hpc).2⟩
        have hle := h.shape.lev_le hlq
        obtain ⟨t', lev', heq, hinv', hfilled', hkeeps'⟩ := ih hinv hfilled
          (by rw [lev_update_ne (ne_of_lev hlq h.lev_next), hlq]) (by omega)
          fun _ => by rw [hhalves.depth]; omega
        refine ⟨t', lev', ?_, hinv', hfilled', hkeeps.trans hkeeps'⟩
        simp [hq, hs, hhalves.parent, heq]
    · refine ⟨t, lev, by simp [splitNodes, hfull], h, fun p l hp => ?_, Keeps.refl t⟩
      obtain ⟨hmin, hmax⟩ := hf p l hp
      by_cases hpc : some cur = some p
      · obtain rfl : cur = p := by simpa using hpc
        simp only [if_true, reduceCtorEq, if_false, add_zero] at hmin hmax ⊢
        exact ⟨hmin, by omega⟩
      · simpa [hpc] using And.intro hmin hmax

end BTree

end Medit
