import Mathlib.Algebra.BigOperators.Group.List.Basic
import Mathlib.Algebra.Group.Nat.Defs
import Mathlib.Algebra.GroupWithZero.Nat
import Mathlib.Algebra.Order.BigOperators.Group.List
import Mathlib.Algebra.Ring.Int.Defs
import Mathlib.Data.List.Flatten
import Mathlib.Data.List.Nodup
import Mathlib.Logic.Function.Basic

/-!
# Balanced trees in memory

A tree is given by two functions on addresses, the children of a node and the
parent of a node. A level function tells the addresses in use from the others: leaves are
on level `0`, and the children of a node are one level below it. All of a tree's
leaves are then at the same depth.

Every fact is local to a node, so that an operation that changes a few nodes has
only those to look at. Two nodes have no common child because a child has one parent.

## Main definitions

* `LevelTree.Links` — children and parents.
* `LevelTree.Shape` — the links form a tree of a given height under a given root.
* `LevelTree.leaves` — the leaves below a node, in order.
* `LevelTree.Under` — where the leaves of a node lie among those of an ancestor.
* `LevelTree.SumsTo` — a field of the nodes is the sum of the children's, except in one place.
-/

namespace LevelTree

variable {α : Type*}

/-- The pointers of the nodes. -/
structure Links (α : Type*) where
  children : α → List α
  parent : α → Option α

/-- The leaves below a node on level `l`, from left to right. -/
def leaves (L : Links α) : ℕ → α → List α
  | 0, p => [p]
  | l + 1, p => (L.children p).flatMap (leaves L l)

@[simp] theorem leaves_zero (L : Links α) (p : α) : leaves L 0 p = [p] := rfl

theorem leaves_succ (L : Links α) (l : ℕ) (p : α) :
    leaves L (l + 1) p = (L.children p).flatMap (leaves L l) := rfl

@[simp] theorem leaves_one (L : Links α) (p : α) : leaves L 1 p = L.children p := by
  rw [leaves_succ]
  exact List.flatMap_singleton' _

/-- The addresses with a level form a tree of height `height` under `root`. -/
structure Shape (L : Links α) (lev : α → Option ℕ) (root : α) (height : ℕ) : Prop where
  root_lev : lev root = some height
  root_parent : L.parent root = none
  lev_le : ∀ {p l}, lev p = some l → l ≤ height
  child : ∀ {p l c}, lev p = some (l + 1) → c ∈ L.children p →
    lev c = some l ∧ L.parent c = some p
  parent : ∀ {p l}, lev p = some l → p ≠ root →
    ∃ q, L.parent p = some q ∧ lev q = some (l + 1) ∧ p ∈ L.children q
  nodup : ∀ {p l}, lev p = some (l + 1) → (L.children p).Nodup

variable {L M : Links α} {lev : α → Option ℕ} {root : α} {height : ℕ}

namespace Shape

theorem of_parent (h : Shape L lev root height) {p q : α} {l : ℕ} (hp : lev p = some l)
    (hq : L.parent p = some q) : lev q = some (l + 1) ∧ p ∈ L.children q := by
  have hne : p ≠ root := by
    rintro rfl
    simp [h.root_parent] at hq
  obtain ⟨q', hq', hlev, hmem⟩ := h.parent hp hne
  obtain rfl : q' = q := by simpa [hq'] using hq
  exact ⟨hlev, hmem⟩

theorem eq_root (h : Shape L lev root height) {p : α} (hp : lev p = some height) : p = root := by
  by_contra hne
  obtain ⟨q, -, hq, -⟩ := h.parent hp hne
  have := h.lev_le hq
  omega

end Shape

/-! ## The place of a node below another -/

/-- `b`, on level `k`, is `p`, on level `l`, or below it; the leaves of `p` left of those of
`b` are `pre`, those right of them are `post`. -/
inductive Under (L : Links α) (b : α) (k : ℕ) : ℕ → α → List α → List α → Prop
  | here : Under L b k k b [] []
  | step {l p c A B pre post} : L.children p = A ++ c :: B → Under L b k l c pre post →
      Under L b k (l + 1) p (A.flatMap (leaves L l) ++ pre) (post ++ B.flatMap (leaves L l))

namespace Under

variable {b p : α} {k l : ℕ} {pre post : List α}

theorem le (h : Under L b k l p pre post) : k ≤ l := by
  induction h with
  | here => exact le_rfl
  | step _ _ ih => omega

theorem leaves_eq (h : Under L b k l p pre post) :
    leaves L l p = pre ++ leaves L k b ++ post := by
  induction h with
  | here => simp
  | step hc _ ih => simp [leaves_succ, hc, ih]

/-- One level further down. -/
theorem snoc {c : α} {A B : List α} (h : Under L b (k + 1) l p pre post)
    (hc : L.children b = A ++ c :: B) :
    Under L c k l p (pre ++ A.flatMap (leaves L k)) (B.flatMap (leaves L k) ++ post) := by
  induction h with
  | here => simpa using Under.step hc (Under.here (L := L) (b := c) (k := k))
  | step hc' _ ih => simpa using Under.step hc' ih

theorem lev_bottom (hs : Shape L lev root height) (h : Under L b k l p pre post)
    (hp : lev p = some l) : lev b = some k := by
  induction h with
  | here => exact hp
  | step hc _ ih => exact ih (hs.child hp (by simp [hc])).1

/-- Only one node of a level is above `b`. -/
theorem unique (hs : Shape L lev root height) {p' : α} {pre' post' : List α}
    (h : Under L b k l p pre post) (h' : Under L b k l p' pre' post')
    (hp : lev p = some l) (hp' : lev p' = some l) : p = p' := by
  induction h generalizing p' pre' post' with
  | here =>
    cases h' with
    | here => rfl
    | step _ hu => have := hu.le; omega
  | step hc hu ih =>
    cases h' with
    | here => have := hu.le; omega
    | step hc' hu' =>
      have hchild := hs.child hp (hc ▸ List.mem_append_cons_self)
      have hchild' := hs.child hp' (hc' ▸ List.mem_append_cons_self)
      obtain rfl := ih hu' hchild.1 hchild'.1
      simpa [hchild'.2] using hchild.2.symm

end Under

/-- Every node is below the root. -/
theorem Shape.under_root (h : Shape L lev root height) {p : α} {l : ℕ} (hp : lev p = some l) :
    ∃ pre post, Under L p l height root pre post := by
  induction hn : height - l generalizing p l with
  | zero =>
    obtain rfl : l = height := by have := h.lev_le hp; omega
    obtain rfl := h.eq_root hp
    exact ⟨_, _, .here⟩
  | succ n ih =>
    have hne : p ≠ root := by
      rintro rfl
      simp only [h.root_lev, Option.some.injEq] at hp
      omega
    obtain ⟨q, -, hq, hmem⟩ := h.parent hp hne
    obtain ⟨pre, post, hu⟩ := ih hq (by omega)
    obtain ⟨A, B, hc⟩ := List.append_of_mem hmem
    exact ⟨_, _, hu.snoc hc⟩

/-- Every leaf of a node is below it. -/
theorem exists_under_of_mem_leaves {b p : α} {l : ℕ} (hb : b ∈ leaves L l p) :
    ∃ pre post, Under L b 0 l p pre post := by
  induction l generalizing p with
  | zero =>
    obtain rfl : b = p := by simpa using hb
    exact ⟨_, _, .here⟩
  | succ l ih =>
    obtain ⟨c, hc, hbc⟩ := List.mem_flatMap.1 hb
    obtain ⟨pre, post, hu⟩ := ih hbc
    obtain ⟨A, B, hAB⟩ := List.append_of_mem hc
    exact ⟨_, _, .step hAB hu⟩

/-- No leaf occurs twice. -/
theorem Shape.nodup_leaves (h : Shape L lev root height) {p : α} {l : ℕ} (hp : lev p = some l) :
    (leaves L l p).Nodup := by
  induction l generalizing p with
  | zero => simp
  | succ l ih =>
    rw [leaves_succ, List.nodup_flatMap]
    refine ⟨fun c hc => ih (h.child hp hc).1, ?_⟩
    refine (h.nodup hp).imp_of_mem fun {c d} hc hd hcd b hbc hbd => hcd ?_
    obtain ⟨_, _, hu⟩ := exists_under_of_mem_leaves hbc
    obtain ⟨_, _, hu'⟩ := exists_under_of_mem_leaves hbd
    exact hu.unique h hu' (h.child hp hc).1 (h.child hp hd).1

section Replace

variable {b : α} {k : ℕ}

/-- Leaves do not change where `b` is not below. -/
theorem leaves_eq_of_not_under (h : Shape L lev root height) (hb : lev b = some k)
    (hne : ∀ p, p ≠ b → M.children p = L.children p) {l : ℕ} {p : α} (hp : lev p = some l)
    (hu : ∀ pre post, ¬ Under L b k l p pre post) : leaves M l p = leaves L l p := by
  induction l generalizing p with
  | zero => rfl
  | succ l ih =>
    have hpb : p ≠ b := by
      rintro rfl
      obtain rfl : k = l + 1 := by simpa [hb] using hp
      exact hu _ _ .here
    rw [leaves_succ, leaves_succ, hne p hpb]
    refine List.flatMap_congr fun c hc => ih (h.child hp hc).1 fun pre post hcu => ?_
    obtain ⟨A, B, hAB⟩ := List.append_of_mem hc
    exact hu _ _ (.step hAB hcu)

/-- Other children for one node change the leaves of its ancestors in one place. -/
theorem Under.leaves_replace (h : Shape L lev root height) (hb : lev b = some k)
    (hne : ∀ p, p ≠ b → M.children p = L.children p) {l : ℕ} {p : α} {pre post : List α}
    (hu : Under L b k l p pre post) (hp : lev p = some l) :
    leaves M l p = pre ++ leaves M k b ++ post := by
  induction hu with
  | here => simp
  | @step l p c A B pre post hc hu ih =>
    have hpb : p ≠ b := by
      rintro rfl
      have := hu.le
      simp only [hp, Option.some.injEq] at hb
      omega
    have hnd : c ∉ A ∧ c ∉ B := by
      have := h.nodup hp
      rw [hc, List.nodup_middle, List.nodup_cons, List.mem_append] at this
      exact not_or.mp this.1
    have hlevc := h.child hp (c := c) (by simp [hc])
    have hother : ∀ x ∈ L.children p, x ≠ c → leaves M l x = leaves L l x := by
      intro x hx hxc
      refine leaves_eq_of_not_under h hb hne (h.child hp hx).1 fun _ _ hxu => hxc ?_
      exact hxu.unique h hu (h.child hp hx).1 hlevc.1
    have hA : A.flatMap (leaves M l) = A.flatMap (leaves L l) :=
      List.flatMap_congr fun x hx =>
        hother x (by simp [hc, hx]) (by rintro rfl; exact hnd.1 hx)
    have hB : B.flatMap (leaves M l) = B.flatMap (leaves L l) :=
      List.flatMap_congr fun x hx =>
        hother x (by simp [hc, hx]) (by rintro rfl; exact hnd.2 hx)
    rw [leaves_succ, hne p hpb, hc]
    simp [hA, hB, ih hlevc.1]

end Replace

/-! ## Sums over the children -/

/-- The values of a node's children do not see what happens elsewhere. -/
theorem Shape.map_children_congr (hs : Shape L lev root height) {f u : ℕ → α → ℤ} {p cur : α}
    {l : ℕ} (hp : lev p = some (l + 1)) (hmem : cur ∉ L.children p)
    (hne : ∀ l p, lev p = some l → p ≠ cur → u l p = f l p) :
    (L.children p).map (u l) = (L.children p).map (f l) := by
  refine List.map_congr_left fun c hc => hne l c (hs.child hp hc).1 ?_
  rintro rfl
  exact hmem hc

variable [DecidableEq α]

/-- `f l p` is the value of `p` as a node on level `l`: the value of a node is the sum of its
children's, except that `off` still misses `δ`. -/
def SumsTo (L : Links α) (lev : α → Option ℕ) (f : ℕ → α → ℤ) (off : Option α) (δ : ℤ) : Prop :=
  ∀ p l, lev p = some (l + 1) →
    ((L.children p).map (f l)).sum = f (l + 1) p + if off = some p then δ else 0

namespace SumsTo

variable {f u : ℕ → α → ℤ} {off : Option α} {δ : ℤ}

theorem of_zero (h : SumsTo L lev f off 0) : SumsTo L lev f none 0 := by
  intro p l hp
  simpa using h p l hp

theorem of_none (h : SumsTo L lev f none δ) (off : Option α) : SumsTo L lev f off 0 := by
  intro p l hp
  simpa using h p l hp

theorem at_off {p : α} {l : ℕ} (h : SumsTo L lev f (some p) δ) (hp : lev p = some (l + 1)) :
    f (l + 1) p + δ = ((L.children p).map (f l)).sum := by
  simpa using (h p l hp).symm

/-- The value of a node is the sum over its leaves. -/
theorem sum_leaves (hs : Shape L lev root height) (h : SumsTo L lev f none δ) {l : ℕ} {p : α}
    (hp : lev p = some l) : ((leaves L l p).map (f 0)).sum = f l p := by
  induction l generalizing p with
  | zero => simp
  | succ l ih =>
    have hsum := h p l hp
    rw [if_neg (by simp), add_zero] at hsum
    rw [leaves_succ, List.flatMap_def, List.map_flatten, List.sum_flatten, ← hsum,
      List.map_map, List.map_map]
    exact congrArg _ (List.map_congr_left fun c hc => ih (hs.child hp hc).1)

/-- Adding the missing amount at one node moves the gap to its parent. -/
theorem step (hs : Shape L lev root height) {cur : α} {k : ℕ} (h : SumsTo L lev f (some cur) δ)
    (hcur : lev cur = some k) (hf : u k cur = f k cur + δ)
    (hne : ∀ l p, lev p = some l → p ≠ cur → u l p = f l p) :
    SumsTo L lev u (L.parent cur) δ := by
  intro p l hp
  have hsum := h p l hp
  by_cases hmem : cur ∈ L.children p
  · obtain ⟨hlev, hpar⟩ := hs.child hp hmem
    obtain rfl : k = l := by simpa [hcur] using hlev
    have hpc : p ≠ cur := by
      rintro rfl
      simp [hp] at hcur
    obtain ⟨A, B, hAB⟩ := List.append_of_mem hmem
    have hnd := hs.nodup hp
    rw [hAB, List.nodup_middle, List.nodup_cons, List.mem_append, not_or] at hnd
    have hA : A.map (u k) = A.map (f k) := List.map_congr_left fun c hc =>
      hne k c (hs.child hp (by simp [hAB, hc])).1 (by rintro rfl; exact hnd.1.1 hc)
    have hB : B.map (u k) = B.map (f k) := List.map_congr_left fun c hc =>
      hne k c (hs.child hp (by simp [hAB, hc])).1 (by rintro rfl; exact hnd.1.2 hc)
    have hpc' : some cur ≠ some p := by simpa using Ne.symm hpc
    rw [if_neg hpc', hAB] at hsum
    rw [hpar, if_pos rfl, hAB, hne _ p hp hpc]
    simp only [List.map_append, List.map_cons, List.sum_append, List.sum_cons, hA, hB, hf] at *
    omega
  · have hpar : L.parent cur ≠ some p := fun hpar => hmem (hs.of_parent hcur hpar).2
    rw [hs.map_children_congr hp hmem hne, hsum, if_neg hpar]
    by_cases hpc : p = cur
    · subst hpc
      obtain rfl : k = l + 1 := by simpa [hcur] using hp
      simp [hf]
    · have hpc' : some cur ≠ some p := by simpa using Ne.symm hpc
      rw [if_neg hpc', hne _ p hp hpc]

end SumsTo

end LevelTree
