import Mathlib.Algebra.Group.Nat.Defs
import Mathlib.Algebra.GroupWithZero.Nat
import Mathlib.Algebra.Ring.Int.Defs
import Medit.LineBuffer.Marked

/-!
# Line numbers and the marks of a line

`line_get_index` walks up from a line and counts the lines left of it. `node_get_marks` walks down to
the lines of a range. Marks learn line numbers on both walks.
-/

namespace Medit

open Function (update)
open LevelTree

namespace BTree

variable {t t' : BTree} {lev : Ptr → Option ℕ} {out : List MarkPtr}

/-! ## The number of a line -/

/-- The walk up counts the lines left of `d`. -/
theorem indexAbove_spec (h : t.Ok lev) {d : Ptr} (fuel : ℕ) {l : ℕ} {p : Ptr} {pre post : List Ptr}
    (hp : lev p = some l) (hu : Under t.links d 0 l p pre post) (hfuel : t.depth + 2 ≤ fuel + l) :
    ∃ i, t.indexAbove fuel p (l == 0) pre.length = some i ∧ t.lines[i]? = some d := by
  induction fuel generalizing l p pre post with
  | zero =>
    have := h.shape.lev_le hp
    omega
  | succ fuel ih =>
    by_cases hroot : p = t.root
    · subst hroot
      obtain rfl : l = t.depth + 1 := by simpa [hp] using h.shape.root_lev
      refine ⟨pre.length, ?_, ?_⟩
      · have hpar : t.parent t.root = none := h.shape.root_parent
        simp [indexAbove, hpar]
      · rw [lines, hu.leaves_eq]
        simp
    · obtain ⟨q, hq, hlq, hmem⟩ := h.shape.parent hp hroot
      obtain ⟨A, B, hAB⟩ := List.append_of_mem hmem
      rw [links_parent] at hq
      rw [links_children] at hAB
      have hnd := h.shape.nodup hlq
      rw [links_children, hAB, List.nodup_middle, List.nodup_cons, List.mem_append, not_or] at hnd
      have hidx : t.nodeGetIndex q p = some A.length := by
        rw [nodeGetIndex, hAB, idxOf?_append_cons hnd.1.1]
      have hlen : (A.flatMap (leaves t.links l)).length =
          if l = 0 then A.length else (A.map t.count).sum := by
        rw [List.length_flatMap]
        split_ifs with hl
        · subst hl
          simp
        · obtain ⟨k, rfl⟩ := Nat.exists_eq_succ_of_ne_zero hl
          refine congrArg _ (List.map_congr_left fun a ha => ?_)
          exact h.length_leaves_node (h.shape.child hlq (by simp [hAB, ha])).1
      obtain ⟨i, hi, hget⟩ := ih hlq (.step hAB hu) (by omega)
      refine ⟨i, ?_, hget⟩
      rw [List.length_append, hlen, Nat.add_comm _ pre.length] at hi
      simp only [indexAbove, hq, hidx, Option.bind_eq_bind, Option.bind_some, hAB, List.take_left]
      simpa using hi

/-- `_moo_line_buffer_get_line_index` -/
theorem getLineIndex_eq (hm : t.Marked out) {i : ℕ} {x : Ptr} (hx : t.lines[i]? = some x) :
    t.getLineIndex x = some i := by
  obtain ⟨lev, hok⟩ := hm.ok
  have hmem := List.mem_of_getElem? hx
  obtain ⟨pre, post, hu⟩ := exists_under_of_mem_leaves (hok.mem_lines_iff.2 (hok.mem_lines_iff.1 hmem))
  obtain ⟨j, hj, hget⟩ := indexAbove_spec hok (t.depth + 2) (hok.mem_lines_iff.1 hmem)
    (.here : Under t.links x 0 0 x [] []) (by omega)
  obtain ⟨hi, hxi⟩ := List.getElem?_eq_some_iff.1 hx
  obtain ⟨hj', hxj⟩ := List.getElem?_eq_some_iff.1 hget
  obtain rfl : j = i := (hm.nodup_lines.getElem_inj_iff).1 (hxj.trans hxi.symm)
  have hlt := hm.size_lt
  rw [hm.size_eq, length_rows] at hlt
  have hto : toInt j = j := by
    rw [toInt, if_pos (by omega)]
  have hget' : t.getLine (j : ℤ) = some x := by
    rw [hm.getLine_eq (by rwa [length_rows]), hx]
  have hwalk : t.indexAbove (t.depth + 2) x true 0 = some j := hj
  simp only [getLineIndex, hwalk, Option.bind_eq_bind, Option.bind_some, hto, gAssert_true hget']

/-! ## Marks that learn their line numbers -/

/-- Some marks of `t` have learned the numbers of their lines. -/
structure Refreshes (t t' : BTree) : Prop where
  eq : t' = { t with mark := t'.mark }
  mark : ∀ m, t'.mark m = t.mark m ∨ ∃ (i : ℕ) (x : Ptr), t.lines[i]? = some x ∧ m ∈ t.marks x ∧
    t'.mark m = { t.mark m with lineNo := i, stamp := t.stamp }

namespace Refreshes

theorem refl : Refreshes t t := ⟨rfl, fun _ => .inl rfl⟩

theorem lines (h : Refreshes t t') : t'.lines = t.lines := by
  rw [h.eq]
  rfl

theorem rows (h : Refreshes t t') : t'.rows = t.rows := by
  rw [h.eq]
  rfl

theorem marks (h : Refreshes t t') : t'.marks = t.marks := by rw [h.eq]

theorem nMarks (h : Refreshes t t') : t'.nMarks = t.nMarks := by rw [h.eq]

theorem stamp (h : Refreshes t t') : t'.stamp = t.stamp := by rw [h.eq]

theorem buffer (h : Refreshes t t') (m : MarkPtr) : (t'.mark m).buffer = (t.mark m).buffer := by
  obtain heq | ⟨i, x, -, -, heq⟩ := h.mark m <;> rw [heq]

theorem line (h : Refreshes t t') (m : MarkPtr) : (t'.mark m).line = (t.mark m).line := by
  obtain heq | ⟨i, x, -, -, heq⟩ := h.mark m <;> rw [heq]

theorem trans {t'' : BTree} (h : Refreshes t t') (h' : Refreshes t' t'') : Refreshes t t'' := by
  refine ⟨by rw [h'.eq, h.eq], fun m => ?_⟩
  have hlines := h.lines
  have hmarks := h.marks
  have hstamp := h.stamp
  have hm := h.mark m
  have hm' := h'.mark m
  grind

theorem ok (h : Refreshes t t') (hok : t.Ok lev) : t'.Ok lev := by
  rw [h.eq]
  exact ⟨⟨⟨hok.shape, hok.isBottom, hok.fresh⟩, hok.counts, hok.marks, hok.count_lt, hok.nMarks_lt⟩,
    hok.filled⟩

theorem stocked (h : Refreshes t t') (hs : t.Stocked) : t'.Stocked := by
  rw [h.eq]
  exact hs

theorem marked (h : Refreshes t t') (hm : t.Marked out) : t'.Marked out := by
  have hlines := h.lines
  have hmarks := h.marks
  have hstamp := h.stamp
  have hmark := h.mark
  obtain ⟨⟨lev, hok⟩, hstocked, hnodup, hon, hlive, hout, hdead, hle, hno⟩ := hm
  refine ⟨⟨lev, h.ok hok⟩, h.stocked hstocked, ?_, ?_, ?_, ?_, ?_, ?_, ?_⟩
  · simpa only [hlines, hmarks] using hnodup
  · simpa only [hlines, hmarks, h.buffer, h.line] using hon
  · simpa only [hlines, hmarks, h.buffer] using hlive
  · simpa only [h.buffer] using hout
  · simpa only [h.buffer, h.line] using hdead
  · intro m
    rw [hstamp]
    obtain heq | ⟨i, x, -, -, heq⟩ := hmark m <;> rw [heq]
    exact hle m
  · intro x hx m hmx hst
    rw [hlines] at hx ⊢
    rw [hmarks] at hmx
    obtain heq | ⟨i, y, hy, hmy, heq⟩ := hmark m
    · exact heq ▸ hno x hx m hmx (by rw [← heq, hst, hstamp])
    · obtain rfl : y = x := Option.some.inj
        ((hon y (List.mem_of_getElem? hy) m hmy).2.1.symm.trans (hon x hx m hmx).2.1)
      exact ⟨i, by rw [heq], hy⟩

end Refreshes

/-- `moo_line_mark_get_line` finds the line of a mark. -/
theorem getMarkLine_spec (hm : t.Marked out) {i : ℕ} {x : Ptr} (hx : t.lines[i]? = some x)
    {m : MarkPtr} (hmx : m ∈ t.marks x) :
    ∃ t', t.getMarkLine m = some (t', (i : ℤ)) ∧ Refreshes t t' := by
  have hmem := List.mem_of_getElem? hx
  obtain ⟨-, hline, -⟩ := hm.on_line x hmem m hmx
  by_cases hst : (t.mark m).stamp = t.stamp
  · obtain ⟨j, hj, hget⟩ := hm.lineNo x hmem m hmx hst
    obtain ⟨hi, hxi⟩ := List.getElem?_eq_some_iff.1 hx
    obtain ⟨hj', hxj⟩ := List.getElem?_eq_some_iff.1 hget
    obtain rfl : j = i := (hm.nodup_lines.getElem_inj_iff).1 (hxj.trans hxi.symm)
    exact ⟨t, by simp [getMarkLine, hline, hst, hj], .refl⟩
  · refine ⟨_, by simp [getMarkLine, hline, Ne.symm hst, getLineIndex_eq hm hx]; rfl, rfl, fun m' => ?_⟩
    by_cases hmm : m' = m
    · subst hmm
      exact .inr ⟨i, x, hx, hmx, by simp [hline]⟩
    · exact .inl (by simp [hmm])

/-! ## The marks of a range of lines -/

/-- The marks of the lines `xs`, the first of which has the number `off`, as far as they are in the
range. -/
def marksWithin (t : BTree) (firstLine lastLine : ℤ) : ℤ → List Ptr → List MarkPtr
  | _, [] => []
  | off, x :: xs => (if firstLine ≤ off ∧ off ≤ lastLine then t.marks x else []) ++
      t.marksWithin firstLine lastLine (off + 1) xs

attribute [elab_as_elim] marksWithin.induct_unfolding

section Within

variable {firstLine lastLine : ℤ}

variable (t firstLine lastLine) in
theorem marksWithin_append (off : ℤ) (xs ys : List Ptr) :
    t.marksWithin firstLine lastLine off (xs ++ ys) = t.marksWithin firstLine lastLine off xs ++
      t.marksWithin firstLine lastLine (off + xs.length) ys := by
  induction xs generalizing off with
  | nil => simp [marksWithin]
  | cons x xs ih =>
    have hoff : off + 1 + (xs.length : ℤ) = off + ((x :: xs).length : ℕ) := by
      rw [List.length_cons]
      omega
    rw [List.cons_append, marksWithin, ih, hoff, marksWithin, List.append_assoc]

/-- Lines outside the range, and lines without marks, have none within it. -/
theorem marksWithin_eq_nil {off : ℤ} {xs : List Ptr}
    (h : lastLine < off ∨ off + xs.length ≤ firstLine ∨ ∀ x ∈ xs, t.marks x = []) :
    t.marksWithin firstLine lastLine off xs = [] := by
  induction xs generalizing off with
  | nil => rfl
  | cons x xs ih =>
    rw [marksWithin, ih, List.append_nil]
    · split_ifs with hr
      · obtain h | h | h := h
        · omega
        · simp only [List.length_cons] at h
          omega
        · exact h x (by simp)
      · rfl
    · obtain h | h | h := h
      · exact .inl (by omega)
      · simp only [List.length_cons] at h
        exact .inr (.inl (by omega))
      · exact .inr (.inr fun y hy => h y (by simp [hy]))

theorem Refreshes.marksWithin (h : Refreshes t t') (off : ℤ) (xs : List Ptr) :
    t'.marksWithin firstLine lastLine off xs = t.marksWithin firstLine lastLine off xs := by
  induction xs generalizing off with
  | nil => rfl
  | cons x xs ih => simp only [BTree.marksWithin, ih, h.marks]

theorem lineGetMarks_spec (hm : t.Marked out) {i : ℕ} {x : Ptr} (hx : t.lines[i]? = some x)
    (total : List MarkPtr) :
    ∃ t', t.lineGetMarks x i total = some (t', (t.marks x).reverse ++ total) ∧ Refreshes t t' := by
  have hmem := List.mem_of_getElem? hx
  have key (ms : List MarkPtr) : ∀ (t₁ : BTree) (total : List MarkPtr), Refreshes t t₁ →
      ms ⊆ t.marks x → ∃ t',
        ms.foldlM (fun (s : BTree × List MarkPtr) mark => do
          let t ← s.1.setMarkLine mark (some x) i s.1.stamp
          return (t, mark :: s.2)) (t₁, total) = some (t', ms.reverse ++ total) ∧
        Refreshes t t' := by
    induction ms with
    | nil => exact fun t₁ total h _ => ⟨t₁, rfl, h⟩
    | cons m ms ih =>
      intro t₁ total h hsub
      have hmx : m ∈ t.marks x := hsub (by simp)
      obtain ⟨hbuf, hline, -⟩ := hm.on_line x hmem m hmx
      let t₂ : BTree :=
        { t₁ with mark := update t₁.mark m ((t₁.mark m).setLine (some x) i t₁.stamp) }
      have hstep : Refreshes t₁ t₂ := by
        refine ⟨rfl, fun m' => ?_⟩
        by_cases hmm : m' = m
        · subst hmm
          refine .inr ⟨i, x, by rw [h.lines, hx], by rwa [h.marks], ?_⟩
          simp [t₂, LineMark.setLine, h.line, hline]
        · exact .inl (by simp [t₂, hmm])
      obtain ⟨t', hrun, href⟩ := ih t₂ (m :: total) (h.trans hstep) fun y hy => hsub (by simp [hy])
      refine ⟨t', ?_, href⟩
      have hset : t₁.setMarkLine m (some x) i t₁.stamp = some t₂ := by
        rw [setMarkLine, gAssert_true (.inr (by rw [h.buffer, hbuf]))]
        rfl
      simpa [hset] using hrun
  obtain ⟨t', hrun, href⟩ := key (t.marks x) t total .refl fun _ h => h
  exact ⟨t', by rw [lineGetMarks, hm.stocked.marksOf hmem, hrun], href⟩

variable (lastLine) in
theorem linesGetMarks_spec (hm : t.Marked out) (xs : List Ptr) (off : ℕ) (hoff : firstLine ≤ off)
    (hxs : ∀ j x, xs[j]? = some x → t.lines[off + j]? = some x) (total : List MarkPtr) :
    ∃ t', t.linesGetMarks lastLine xs off total =
      some (t', (t.marksWithin firstLine lastLine off xs).reverse ++ total) ∧ Refreshes t t' := by
  induction xs generalizing t off total with
  | nil => exact ⟨t, rfl, .refl⟩
  | cons x xs ih =>
    rw [linesGetMarks]
    by_cases hlast : lastLine < off
    · rw [if_pos hlast, marksWithin_eq_nil (.inl hlast)]
      exact ⟨t, rfl, .refl⟩
    · obtain ⟨t₁, hline, h₁⟩ := lineGetMarks_spec hm (hxs 0 x rfl) total
      obtain ⟨t₂, hrun, h₂⟩ := ih (h₁.marked hm) (off + 1) (by omega) (fun j y hy => by
        rw [h₁.lines]
        have := hxs (j + 1) y hy
        rwa [Nat.add_assoc, Nat.add_comm 1 j]) ((t.marks x).reverse ++ total)
      refine ⟨t₂, ?_, h₁.trans h₂⟩
      rw [if_neg hlast]
      have hline' : t.lineGetMarks x off total = some (t₁, (t.marks x).reverse ++ total) := hline
      have hrun' : t₁.linesGetMarks lastLine xs ((off : ℤ) + 1) ((t.marks x).reverse ++ total) = _ := hrun
      simp only [hline', Option.bind_eq_bind, Option.bind_some, hrun', h₁.marksWithin, marksWithin]
      rw [if_pos ⟨hoff, by omega⟩]
      simp

theorem Refreshes.under (h : Refreshes t t') {p q : Ptr} {k l : ℕ} {pre post : List Ptr}
    (hu : Under t.links p k l q pre post) : Under t'.links p k l q pre post := by
  rw [h.eq]
  exact hu

/-- A node or a line with no marks has none below it. -/
theorem Marked.marks_eq_nil (hm : t.Marked out) (hok : t.Ok lev) {l : ℕ} {p : Ptr}
    (hp : lev p = some l) (hz : t.nMarks p = 0) {x : Ptr} (hx : x ∈ leaves t.links l p) :
    t.marks x = [] := by
  have hsum := hok.sum_marks hp
  obtain ⟨_, _, hu⟩ := exists_under_of_mem_leaves hx
  have hlev := hu.lev_bottom hok.shape hp
  have hle := List.single_le_sum (fun _ _ => Nat.zero_le _) _
    (List.mem_map_of_mem (f := t.nMarks) hx)
  have hstock := hm.stocked x (hok.mem_lines_iff.2 hlev)
  rw [hsum, hz] at hle
  exact List.length_eq_zero_iff.1 (by omega)

/-- What `node_get_marks` does with a node on level `l`. -/
def GetsMarks (getMarks : BTree → Ptr → ℤ → Option (BTree × List MarkPtr)) (firstLine lastLine : ℤ)
    (lev : Ptr → Option ℕ) (l : ℕ) : Prop :=
  ∀ (t : BTree) (out : List MarkPtr) (p : Ptr) (pre post : List Ptr), t.Ok lev → t.Marked out →
    lev p = some l → Under t.links p l (t.depth + 1) t.root pre post →
    ∃ t', getMarks t p pre.length = some (t',
      (t.marksWithin firstLine lastLine pre.length (leaves t.links l p)).reverse) ∧ Refreshes t t'

/-- The loop over the children `cs` of a node; the leaves before them are `pre`. -/
theorem childrenGetMarks_spec {getMarks : BTree → Ptr → ℤ → Option (BTree × List MarkPtr)} {l : ℕ}
    (hget : GetsMarks getMarks firstLine lastLine lev (l + 1)) (hok : t.Ok lev) (hm : t.Marked out)
    (cs : List Ptr) (pre : List Ptr)
    (hcs : ∀ A c B, cs = A ++ c :: B → lev c = some (l + 1) ∧
      ∃ post', Under t.links c (l + 1) (t.depth + 1) t.root
        (pre ++ A.flatMap (leaves t.links (l + 1))) post') (total : List MarkPtr) :
    ∃ t', childrenGetMarks getMarks lastLine t cs pre.length total = some (t',
      (t.marksWithin firstLine lastLine pre.length
        (cs.flatMap (leaves t.links (l + 1)))).reverse ++ total) ∧ Refreshes t t' := by
  induction cs generalizing t pre total with
  | nil => exact ⟨t, by simp [childrenGetMarks, marksWithin], .refl⟩
  | cons c cs ih =>
    obtain ⟨hc, post', hu⟩ := hcs [] c cs rfl
    rw [List.flatMap_nil, List.append_nil] at hu
    have hcount : (leaves t.links (l + 1) c).length = t.count c := hok.length_leaves_node hc
    have hoff : (pre.length : ℤ) + (leaves t.links (l + 1) c).length =
        (pre ++ leaves t.links (l + 1) c).length := by simp
    -- What follows the first child.
    have hrest (t₁ : BTree) (h₁ : Refreshes t t₁) : ∃ t',
        (if lastLine < pre.length + t₁.count c then some (t₁, (t.marksWithin firstLine lastLine
            pre.length (leaves t.links (l + 1) c)).reverse ++ total)
          else childrenGetMarks getMarks lastLine t₁ cs (pre.length + t₁.count c)
            ((t.marksWithin firstLine lastLine pre.length
              (leaves t.links (l + 1) c)).reverse ++ total)) =
          some (t', (t.marksWithin firstLine lastLine pre.length
            ((c :: cs).flatMap (leaves t.links (l + 1)))).reverse ++ total) ∧ Refreshes t t' := by
      have hcount₁ : t₁.count c = (leaves t.links (l + 1) c).length := by rw [h₁.eq, hcount]
      have hlinks₁ : t₁.links = t.links := by
        rw [h₁.eq]
        rfl
      rw [hcount₁, List.flatMap_cons, marksWithin_append, List.reverse_append, List.append_assoc,
        hoff]
      split_ifs with hlast
      · rw [marksWithin_eq_nil (.inl hlast)]
        exact ⟨t₁, rfl, h₁⟩
      · obtain ⟨t₂, hrun, h₂⟩ := ih (h₁.ok hok) (h₁.marked hm)
          (pre ++ leaves t.links (l + 1) c) (fun A d B hd => by
            obtain ⟨hlev, post'', hu'⟩ := hcs (c :: A) d B (by rw [hd]; rfl)
            rw [List.flatMap_cons, ← List.append_assoc] at hu'
            have hu'' := h₁.under hu'
            rw [hlinks₁] at hu'' ⊢
            refine ⟨hlev, post'', ?_⟩
            have hroot : t₁.root = t.root := by rw [h₁.eq]
            have hdepth : t₁.depth = t.depth := by rw [h₁.eq]
            rwa [hroot, hdepth]) _
        refine ⟨t₂, ?_, h₁.trans h₂⟩
        rw [hrun, hlinks₁, h₁.marksWithin]
    rw [childrenGetMarks]
    by_cases hz : t.nMarks c = 0
    · have hnil : t.marksWithin firstLine lastLine pre.length (leaves t.links (l + 1) c) = [] :=
        marksWithin_eq_nil (.inr (.inr fun x hx => hm.marks_eq_nil hok hc hz hx))
      simpa [hz, hnil] using hrest t .refl
    · obtain ⟨t₁, hchild, h₁⟩ := hget t out c pre post' hok hm hc hu
      simpa [hz, hchild] using hrest t₁ h₁

/-- The lines of a bottom node. -/
theorem nodeGetMarks_bottom (hok : t.Ok lev) (hm : t.Marked out) {p : Ptr} {pre post : List Ptr}
    (hp : lev p = some 1) (hu : Under t.links p 1 (t.depth + 1) t.root pre post)
    (hfirst : firstLine < pre.length + t.count p) :
    ∃ t', t.linesGetMarks lastLine ((t.children p).drop (max (firstLine - pre.length) 0).toNat)
        ((max (firstLine - pre.length) 0).toNat + pre.length) [] =
      some (t', (t.marksWithin firstLine lastLine pre.length (t.children p)).reverse) ∧
      Refreshes t t' := by
  have hcount := hok.length_leaves_node hp
  rw [leaves_one, links_children] at hcount
  obtain ⟨i, hi⟩ : ∃ i, (max (firstLine - pre.length) 0).toNat = i := ⟨_, rfl⟩
  have hlines : t.lines = pre ++ (t.children p ++ post) := by
    rw [lines, hu.leaves_eq]
    simp
  obtain ⟨t', hrun, h⟩ := linesGetMarks_spec lastLine hm ((t.children p).drop i)
    (pre.length + i) (show firstLine ≤ _ by omega) (fun j x hx => by
      rw [List.getElem?_drop] at hx
      have hlt := (List.getElem?_eq_some_iff.1 hx).1
      rw [hlines, List.getElem?_append_right (by omega), List.getElem?_append_left (by omega), ← hx]
      congr 1
      omega) []
  refine ⟨t', ?_, h⟩
  have hsplit : t.marksWithin firstLine lastLine pre.length (t.children p) =
      t.marksWithin firstLine lastLine ((pre.length + i : ℕ) : ℤ) ((t.children p).drop i) := by
    have happ := marksWithin_append t firstLine lastLine pre.length ((t.children p).take i) ((t.children p).drop i)
    have hlen : ((t.children p).take i).length = i := List.length_take_of_le (by omega)
    rw [List.take_append_drop, hlen] at happ
    by_cases hz : i = 0
    · subst hz
      simp
    · have hnil : t.marksWithin firstLine lastLine pre.length ((t.children p).take i) = [] :=
        marksWithin_eq_nil (.inr (.inl (by rw [hlen]; omega)))
      rw [hnil] at happ
      simpa using happ
  have hoff : ((i : ℤ) + pre.length) = ((pre.length + i : ℕ) : ℤ) := by omega
  rw [hi, hoff, hrun, hsplit, List.append_nil]

variable (lev firstLine lastLine) in
/-- `node_get_marks` -/
theorem nodeGetMarks_spec (l : ℕ) (fuel : ℕ) (hfuel : l < fuel) :
    GetsMarks (nodeGetMarks firstLine lastLine fuel) firstLine lastLine lev (l + 1) := by
  induction l generalizing fuel with
  | zero =>
    obtain ⟨fuel, rfl⟩ := Nat.exists_eq_succ_of_ne_zero (Nat.ne_of_gt hfuel)
    intro t out p pre post hok hm hp hu
    have hcount := hok.length_leaves_node hp
    rw [nodeGetMarks]
    split_ifs with hz hrange hbot
    · exact ⟨t, by rw [marksWithin_eq_nil (.inr (.inr fun x hx => hm.marks_eq_nil hok hp hz hx))]; rfl,
        .refl⟩
    · exact ⟨t, by rw [marksWithin_eq_nil (by omega)]; rfl, .refl⟩
    · rw [leaves_one]
      exact nodeGetMarks_bottom hok hm hp hu (by omega)
    · exact absurd ((hok.isBottom hp).2 rfl) hbot
  | succ l ih =>
    obtain ⟨fuel, rfl⟩ := Nat.exists_eq_succ_of_ne_zero (Nat.ne_of_gt (Nat.lt_of_le_of_lt (Nat.zero_le _) hfuel))
    intro t out p pre post hok hm hp hu
    have hcount := hok.length_leaves_node hp
    rw [nodeGetMarks]
    split_ifs with hz hrange hbot
    · exact ⟨t, by rw [marksWithin_eq_nil (.inr (.inr fun x hx => hm.marks_eq_nil hok hp hz hx))]; rfl,
        .refl⟩
    · exact ⟨t, by rw [marksWithin_eq_nil (by omega)]; rfl, .refl⟩
    · exact absurd ((hok.isBottom hp).1 hbot) (by omega)
    · have hchildren := childrenGetMarks_spec (ih fuel (by omega)) hok hm (t.children p)
        pre (fun A c B hc => ⟨(hok.shape.child hp (by simp [hc])).1, _, hu.snoc hc⟩) []
      rwa [List.append_nil, ← links_children, ← leaves_succ] at hchildren

end Within

/-- The marks of one line, as `moo_text_buffer_get_line_marks_at_line` finds them. -/
theorem getMarksInRange_spec (hm : t.Marked out) {i : ℕ} {x : Ptr} (hx : t.lines[i]? = some x) :
    ∃ t', t.getMarksInRange i i = some (t', t.marks x) ∧ Refreshes t t' := by
  obtain ⟨lev, hok⟩ := hm.ok
  obtain ⟨hi, hxi⟩ := List.getElem?_eq_some_iff.1 hx
  have hsz := hm.size_eq
  have hlt := hm.size_lt
  rw [length_rows] at hsz
  have hto : toInt t.size = t.lines.length := by rw [toInt, if_pos (by omega), hsz]
  obtain ⟨t', hrun, h⟩ := nodeGetMarks_spec lev i i t.depth
    (t.depth + 1) (by omega) t out t.root [] [] hok hm hok.shape.root_lev .here
  refine ⟨t', ?_, h⟩
  have hwithin : t.marksWithin i i 0 (leaves t.links (t.depth + 1) t.root) = t.marks x := by
    have hsplit : t.lines = t.lines.take i ++ x :: t.lines.drop (i + 1) := by
      rw [← hxi, List.getElem_cons_drop, List.take_append_drop]
    rw [← lines, hsplit, marksWithin_append, marksWithin,
      marksWithin_eq_nil (.inr (.inl (by simp))), marksWithin_eq_nil (.inl (by simp; omega)),
      if_pos (by simp; omega)]
    simp
  have hrun' : nodeGetMarks i i (t.depth + 1) t t.root 0 = some (t', (t.marks x).reverse) := by
    have := hrun
    rw [List.length_nil, Nat.cast_zero, hwithin] at this
    exact this
  simp only [getMarksInRange, hto]
  rw [gAssert_true (by omega), if_pos (by omega), if_neg (show ¬ ((i : ℤ) < 0 ∨ _) by omega),
    if_pos le_rfl, hrun']
  simp


end BTree

end Medit
