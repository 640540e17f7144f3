import Medit.Fold.Links
import Medit.Fold.Forest

/-!
# Adding a fold
-/

namespace Medit

open LinkedForest LinkedForest.Forest

namespace FoldTree

/-! ## The walk of `insert_fold` -/

/-- An addition of the lines `firstLine` to `lastLine` comes to the fold `o`, or to the end of the
list if that is `NULL`, in the list below `p` and after the fold `q`. -/
inductive Reaches (t : FoldTree) (firstLine lastLine : ℤ) :
    Option FoldPtr → Option FoldPtr → Option FoldPtr → Prop
  | start : Reaches t firstLine lastLine none none t.folds
  | next {p q : Option FoldPtr} {x : FoldPtr} : Reaches t firstLine lastLine p q (some x) → t.getEnd x < firstLine →
      Reaches t firstLine lastLine p (some x) (t.next x)
  | into {p q : Option FoldPtr} {x : FoldPtr} : Reaches t firstLine lastLine p q (some x) → t.getStart x < firstLine →
      firstLine < t.getEnd x → lastLine ≤ t.getEnd x →
      Reaches t firstLine lastLine (some x) none (t.children x)

/-- The addition stops between two siblings. -/
def Between (t : FoldTree) (firstLine lastLine : ℤ) : Prop :=
  ∃ p q x, t.Reaches firstLine lastLine p (some q) (some x) ∧ firstLine ≤ t.getEnd x ∧
    lastLine < t.getStart x

variable {t u : FoldTree} {p q o last : Option FoldPtr} {x : FoldPtr} {f k r : Forest FoldPtr}
  {firstLine lastLine : ℤ}

/-- What `insert_fold` sets besides the links. -/
structure NewFold (t u : FoldTree) (firstLine lastLine : ℤ) : Prop where
  start : u.start = assign t.start (some t.fresh) (t.buffer.markLine firstLine)
  stop : u.stop = assign t.stop (some t.fresh) (t.buffer.markLine lastLine)
  collapsed : u.collapsed = assign t.collapsed (some t.fresh) false
  deleted : u.deleted = assign t.deleted (some t.fresh) false
  fresh : u.fresh = t.fresh + 1
  buffer : u.buffer = t.buffer

theorem newFold_insertBefore :
    NewFold t (t.insertBefore p o last firstLine lastLine) firstLine lastLine := by
  rcases o with _ | x <;> rcases last with _ | l <;> constructor <;> rfl

theorem newFold_insertAround :
    NewFold t (t.insertAround p x firstLine lastLine) firstLine lastLine := by
  constructor <;> rfl

theorem insertFold_spec {n : ℕ} (hp : Placed t.heap p q f [t.fresh])
    (hlive : ∀ x ∈ f.nodes, t.deleted x = false) (hn : f.nodes.length < n)
    (hlast : last ≠ some t.fresh) (hend : f = nil → last = q) (hlt : firstLine < lastLine)
    (hreach : t.Reaches firstLine lastLine p q f.head) (hnot : ¬ t.Between firstLine lastLine) :
    (addRange t.start t.stop t.fresh firstLine lastLine f = none ∧
      t.insertFold firstLine lastLine n p last f.head = some (t, none)) ∨
    ∃ g c u, addRange t.start t.stop t.fresh firstLine lastLine f = some g ∧
      t.insertFold firstLine lastLine n p last f.head = some (u, some t.fresh) ∧
      Replaced t.heap u.heap p q f g c [t.fresh] ∧ NewFold t u firstLine lastLine := by
  induction f generalizing p q last n with
  | nil =>
    obtain ⟨n, rfl⟩ := Nat.exists_eq_succ_of_ne_zero (Nat.ne_zero_of_lt hn)
    exact .inr ⟨_, _, _, rfl, rfl, insertBefore_spec hp hlast hend (fun h => absurd rfl h),
      newFold_insertBefore⟩
  | node x k r ihk ihr =>
    obtain ⟨n, rfl⟩ := Nat.exists_eq_succ_of_ne_zero (Nat.ne_zero_of_lt hn)
    have hdel : t.deleted x = false := hlive x (by simp)
    have hstart : t.getStart x = t.start x := by simp [getStart, hdel]
    have hstop : t.getEnd x = t.stop x := by simp [getEnd, hdel]
    have hcell := hp.cell_head
    simp only [heap_cell, Cell.mk.injEq] at hcell
    obtain ⟨-, -, hnext, hkids, -⟩ := hcell
    simp only [nodes_node, List.length_cons, List.length_append] at hn
    rw [head_node] at hreach ⊢
    obtain ⟨l, hl, hlf, hlr⟩ : ∃ l, (if t.next x = none then some x else last) = l ∧
        l ≠ some t.fresh ∧ (r = nil → l = some x) := by
      refine ⟨_, rfl, ?_, fun hr => by simp [hnext, hr]⟩
      split
      · exact hp.rest.prev_notMem _ (by simp)
      · exact hlast
    simp only [insertFold, addRange, hstart, hstop, hl]
    rw [hnext, hkids]
    split_ifs with h1 h2 h3 h4 h5 h6
    · -- the range is after this fold
      obtain ⟨hnone, heq⟩ | ⟨g, c, u, hg, heq, hrep, hnew⟩ := ihr hp.rest
        (fun y hy => hlive y (by simp [hy])) (n := n) (by omega) hlf hlr
        (hnext ▸ hreach.next (hstop ▸ h1))
      · exact .inl ⟨by rw [hnone]; rfl, heq⟩
      · exact .inr ⟨_, c, u, by rw [hg]; rfl, heq, hrep.rest hp, hnew⟩
    · -- before this fold, and so the first of the list
      have hq : q = none := by
        by_contra hq
        obtain ⟨w, rfl⟩ := Option.ne_none_iff_exists'.1 hq
        exact hnot ⟨p, w, x, hreach, by omega, by omega⟩
      exact .inr ⟨_, _, _, rfl, rfl, insertBefore_spec hp hlf (fun h => by simp at h)
        fun _ => hq, newFold_insertBefore⟩
    · exact .inl ⟨rfl, rfl⟩
    · exact .inl ⟨rfl, rfl⟩
    · -- in this fold
      obtain ⟨hnone, heq⟩ | ⟨g, c, u, hg, heq, hrep, hnew⟩ := ihk hp.kids
        (fun y hy => hlive y (by simp [hy])) (n := n) (by omega)
        (Option.some_ne_none t.fresh).symm (fun _ => rfl)
        (hkids ▸ hreach.into (by omega) (by omega) (by omega))
      · exact .inl ⟨by rw [hnone]; rfl, heq⟩
      · exact .inr ⟨_, _, u, by rw [hg]; rfl, heq, hrep.kids hp, hnew⟩
    · exact .inl ⟨rfl, rfl⟩
    · exact .inr ⟨_, _, _, rfl, rfl, insertAround_spec hp, newFold_insertAround⟩

/-- A refused addition changes nothing. -/
theorem insertFold_none {n : ℕ} (h : t.insertFold firstLine lastLine n p last o = some (u, none)) :
    u = t := by
  induction n generalizing p last o with
  | zero => simp [insertFold] at h
  | succ n ih =>
    cases o with
    | none => simp [insertFold] at h
    | some x =>
      simp only [insertFold] at h
      generalize (if t.next x = none then some x else last) = l at h
      split_ifs at h
      · exact ih h
      · simp at h
      · exact (Prod.mk.inj (Option.some.inj h)).1.symm
      · exact (Prod.mk.inj (Option.some.inj h)).1.symm
      · exact ih h
      · exact (Prod.mk.inj (Option.some.inj h)).1.symm
      · simp at h

end FoldTree

end Medit
