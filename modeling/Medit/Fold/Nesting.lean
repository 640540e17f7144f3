import Mathlib.Logic.Relation
import Medit.Fold.Visible

/-!
# Nested folds

The folds stay nested under an addition, unless it goes around a fold whose next sibling it
covers, or crosses, as well.
-/

namespace Medit

open LinkedForest LinkedForest.Forest

namespace FoldTree

/-- The addition goes around a fold, and the next sibling of that fold starts before its end. -/
def Covers (t : FoldTree) (firstLine lastLine : ℤ) : Prop :=
  ∃ p q x y, t.Reaches firstLine lastLine p q (some x) ∧ firstLine < t.getStart x ∧
    t.getEnd x ≤ lastLine ∧ t.next x = some y ∧ t.getStart y ≤ lastLine

/-- A fold is below another one. -/
def Descendant (t : FoldTree) (y x : FoldPtr) : Prop :=
  Relation.TransGen (fun a b => t.parent a = some b) y x

variable {t u : FoldTree} {p q o : Option FoldPtr} {x y : FoldPtr} {f g k r : Forest FoldPtr}
  {firstLine lastLine lo hi : ℤ}

theorem getStart_of_live (h : t.deleted x = false) : t.getStart x = t.start x := by
  simp [getStart, h]

theorem getEnd_of_live (h : t.deleted x = false) : t.getEnd x = t.stop x := by
  simp [getEnd, h]

theorem addRange_nested (hl : Linked t.heap p q f) (hn : Nested t.start t.stop lo hi f)
    (hlive : ∀ x ∈ f.nodes, t.deleted x = false) (hfresh : t.fresh ∉ f.nodes) (hlo : lo ≤ firstLine)
    (hhi : lastLine ≤ hi) (hlt : firstLine < lastLine)
    (hreach : t.Reaches firstLine lastLine p q f.head) (hnot : ¬ t.Covers firstLine lastLine)
    (hg : addRange t.start t.stop t.fresh firstLine lastLine f = some g) :
    Nested (assign t.start (some t.fresh) firstLine) (assign t.stop (some t.fresh) lastLine)
      lo hi g := by
  -- the lines of the folds that are there already
  have hsame {v : ℤ} (member : FoldPtr → ℤ) {s : Forest FoldPtr} (hs : t.fresh ∉ s.nodes) :
      ∀ x ∈ s.nodes, assign member (some t.fresh) v x = member x := fun x hx => by
    have hne : t.fresh ≠ x := fun he => hs (he ▸ hx)
    simp [assign, hne]
  have hcongr {s : Forest FoldPtr} (hs : t.fresh ∉ s.nodes) {lo hi : ℤ}
      (hn : Nested t.start t.stop lo hi s) : Nested (assign t.start (some t.fresh) firstLine)
        (assign t.stop (some t.fresh) lastLine) lo hi s :=
    hn.congr (hsame _ hs) (hsame _ hs)
  have hz {v : ℤ} (member : FoldPtr → ℤ) : assign member (some t.fresh) v t.fresh = v := by
    simp [assign]
  induction f generalizing p q lo hi g with
  | nil =>
    obtain rfl := Option.some.inj hg
    exact ⟨by rwa [hz], by rwa [hz, hz], by rwa [hz], trivial, trivial⟩
  | node x k r ihk ihr =>
    obtain ⟨hx, hlk, hlr⟩ := hl
    simp only [heap_cell, Cell.mk.injEq] at hx
    obtain ⟨-, -, hnext, hkids, -⟩ := hx
    have hnode := hn
    obtain ⟨h1, h2, h3, h4, h5⟩ := hn
    have hnotMem := hfresh
    simp only [nodes_node, List.mem_cons, List.mem_append, not_or] at hnotMem
    obtain ⟨hxf, hkf, hrf⟩ := hnotMem
    have hxs : assign t.start (some t.fresh) firstLine x = t.start x :=
      hsame _ hfresh x (by simp)
    have hxe : assign t.stop (some t.fresh) lastLine x = t.stop x := hsame _ hfresh x (by simp)
    have hstart := getStart_of_live (hlive x (by simp))
    have hstop := getEnd_of_live (hlive x (by simp))
    rw [addRange] at hg
    split_ifs at hg with c1 c2 c3 c4 c5 c6
    · obtain ⟨s, hs, rfl⟩ := Option.map_eq_some_iff.1 hg
      refine ⟨by rwa [hxs], by rwa [hxs, hxe], by rwa [hxe], ?_, ?_⟩
      · rw [hxs, hxe]
        exact hcongr hkf h4
      · rw [hxe]
        exact ihr hlr h5 (fun y hy => hlive y (by simp [hy])) hrf (by omega) hhi
          (hnext ▸ hreach.next (hstop ▸ c1)) hs
    · obtain rfl := Option.some.inj hg
      refine ⟨by rwa [hz], by rwa [hz, hz], by rwa [hz], trivial, ?_⟩
      rw [hz]
      exact hcongr hfresh ⟨by omega, h2, h3, h4, h5⟩
    · obtain ⟨s, hs, rfl⟩ := Option.map_eq_some_iff.1 hg
      refine ⟨by rwa [hxs], by rwa [hxs, hxe], by rwa [hxe], ?_, ?_⟩
      · rw [hxs, hxe]
        exact ihk hlk h4 (fun y hy => hlive y (by simp [hy])) hkf (by omega) (by omega)
          (hkids ▸ hreach.into (by omega) (by omega) (by omega)) hs
      · rw [hxe]
        exact hcongr hrf h5
    · obtain rfl := Option.some.inj hg
      refine ⟨by rwa [hz], by rwa [hz, hz], by rwa [hz], ?_, ?_⟩
      · rw [hz, hz]
        exact ⟨by rw [hxs]; omega, by rwa [hxs, hxe], by rw [hxe]; omega,
          by rw [hxs, hxe]; exact hcongr hkf h4, trivial⟩
      · rw [hz]
        refine hcongr hrf ?_
        cases r with
        | nil => trivial
        | node y k' r' =>
          -- the next sibling starts after the new fold
          have hy := getStart_of_live (hlive y (by simp))
          have hafter : lastLine < t.start y := by
            by_contra hle
            exact hnot ⟨p, q, x, y, hreach, by omega, by omega, hnext, by omega⟩
          exact ⟨by omega, h5.2⟩

/-! ## What it means for the folds -/

/-- The live folds are well linked and properly nested. -/
structure WellNested (t : FoldTree) (live : FoldPtr → Prop) : Prop where
  linked : WellLinked t.heap live
  lines : ∀ {x}, live x → 0 ≤ t.getStart x ∧ t.getStart x < t.getEnd x ∧
    t.getEnd x < t.buffer.lineCount
  /-- Siblings are in order and disjoint. -/
  siblings : ∀ {p xs}, (∀ x, p = some x → live x) → Chain t.heap (t.first p) xs →
    xs.Pairwise fun x y => t.getEnd x < t.getStart y
  /-- A child is inside its parent, and starts later. -/
  parent : ∀ {x p}, live x → t.parent x = some p →
    t.getStart p < t.getStart x ∧ t.getEnd x ≤ t.getEnd p
  /-- A fold inside the range of another one is below it. -/
  inside : ∀ {x y}, live x → live y → t.getStart x < t.getStart y → t.getEnd y ≤ t.getEnd x →
    t.Descendant y x

theorem descendant_of_mem (hl : Linked t.heap (some x) q f) (hy : y ∈ f.nodes) :
    t.Descendant y x := by
  induction f generalizing x q with
  | nil => simp at hy
  | node z k r ihk ihr =>
    obtain ⟨hz, hk, hr⟩ := hl
    have hpar : t.parent z = some x := congrArg Cell.parent hz
    simp only [nodes_node, List.mem_cons, List.mem_append] at hy
    rcases hy with rfl | hy | hy
    · exact .single hpar
    · exact (ihk hk hy).tail hpar
    · exact ihr hr hy

/-- A fold that is not around another one, nor apart from it, is below it. -/
theorem Holds.below (h : t.Holds f) (hn : t.NestedFolds f) (hx : x ∈ f.nodes) (hy : y ∈ f.nodes) :
    y = x ∨ t.Descendant y x ∨ t.stop y < t.start x ∨ t.stop x < t.start y ∨
      t.start y < t.start x ∧ t.stop x ≤ t.stop y := by
  obtain ⟨k, hlk, -, -, hnest⟩ := exists_below t.start t.stop h.rooted.linked hx
  refine ((hnest hn).2 y hy).imp id fun hor => hor.imp (fun hyk => ?_) id
  exact descendant_of_mem hlk hyk

theorem Holds.wellNested (h : t.Holds f) (hn : t.NestedFolds f) : t.WellNested (· ∈ f.nodes) := by
  have hstart {x} (hx : x ∈ f.nodes) := getStart_of_live (h.live x hx)
  have hstop {x} (hx : x ∈ f.nodes) := getEnd_of_live (h.live x hx)
  have hlists {p : Option FoldPtr} (hp : ∀ x, p = some x → x ∈ f.nodes) :
      ∃ lo hi q g, Linked t.heap p q g ∧ g.nodes ⊆ f.nodes ∧ t.first p = g.head ∧
        Nested t.start t.stop lo hi g ∧ ∀ z, p = some z → lo = t.start z + 1 ∧ hi = t.stop z := by
    cases p with
    | none =>
      exact ⟨_, _, none, f, h.rooted.linked, List.Subset.refl _, h.rooted.first, hn, nofun⟩
    | some z =>
      obtain ⟨k, hlk, hkids, hsub, hnest⟩ := exists_below t.start t.stop h.rooted.linked (hp z rfl)
      refine ⟨_, _, none, k, hlk, hsub.subset, hkids, (hnest hn).1, ?_⟩
      rintro w ⟨⟩
      exact ⟨rfl, rfl⟩
  refine ⟨h.rooted.wellLinked, fun hx => ?_, fun hp hc => ?_, fun {x p} hx hpar => ?_,
    fun {x y} hx hy hlt hle => ?_⟩
  · have := hn.bounds hx
    rw [hstart hx, hstop hx]
    omega
  · obtain ⟨lo, hi, q, g, hl, hsub, hfirst, hnest, -⟩ := hlists hp
    rw [hfirst] at hc
    rw [hc.unique hl.chain]
    refine hnest.pairwise_tops.imp_of_mem fun ha hb hlt => ?_
    rwa [hstop (hsub (tops_subset ha)), hstart (hsub (tops_subset hb))]
  · rcases h.rooted.linked.siblings_of_mem hx with htop | ⟨z, hz, k, hk, hkids, htop⟩
    · exact nomatch hpar.symm.trans (h.rooted.linked.parent_of_mem_tops htop)
    · obtain rfl : z = p := by
        simpa using (hk.parent_of_mem_tops htop).symm.trans hpar
      obtain ⟨lo, hi, q, g, hl, -, hfirst, hnest, hbounds⟩ := hlists (p := some z)
        fun w hw => Option.some.inj hw ▸ hz
      obtain ⟨rfl, rfl⟩ := hbounds z rfl
      have hkg : k.head = g.head := hkids.symm.trans hfirst
      have htops : k.tops = g.tops := hk.chain.unique (hkg ▸ hl.chain)
      have := hnest.bounds (tops_subset (htops ▸ htop))
      rw [hstart hz, hstart hx, hstop hx, hstop hz]
      omega
  · rw [hstart hx, hstart hy] at hlt
    rw [hstop hx, hstop hy] at hle
    have := hn.bounds hx
    have := hn.bounds hy
    rcases h.below hn hx hy with rfl | hd | hor
    · omega
    · exact hd
    · omega

end FoldTree

end Medit
