import Mathlib.Data.List.InsertIdx
import Mathlib.Tactic.Linarith
import Medit.Library.LevelTree

/-!
# Editing a balanced tree in memory

What the elementary changes of a tree do to its shape, to the leaves below a node and
to sums over children: a new child, a removed child, children moved between
neighbours, a new root and a removed root. A change is described by how the pointers
after it relate to those before, not by the order of the assignments.
-/

namespace LevelTree

variable {α : Type*} {L M : Links α} {lev : α → Option ℕ} {root : α} {height : ℕ}

open Function (update)

theorem insertIdx_append (A B : List α) (d : α) : (A ++ B).insertIdx A.length d = A ++ d :: B := by
  induction A with
  | nil => rfl
  | cons a A ih => simp [ih]

theorem insertIdx_eq_take_drop {l : List α} {i : ℕ} (d : α) (hi : i ≤ l.length) :
    l.insertIdx i d = l.take i ++ d :: l.drop i := by
  have := insertIdx_append (l.take i) (l.drop i) d
  rwa [List.take_append_drop, List.length_take, min_eq_left hi] at this

/-- What an address on some level is not: one without a level. -/
theorem ne_of_lev {p d : α} {l : ℕ} (hp : lev p = some l) (hd : lev d = none) : p ≠ d := by
  rintro rfl
  simp [hd] at hp

/-- Neighbours among the children of a node differ from each other and from the other children. -/
theorem Shape.neighbours (h : Shape L lev root height) {x y q : α} {l : ℕ} {A B : List α}
    (hlq : lev q = some (l + 1)) (hq : L.children q = A ++ x :: y :: B) :
    x ≠ y ∧ x ∉ A ∧ y ∉ A ∧ x ∉ B ∧ y ∉ B := by
  have hnd := h.nodup hlq
  rw [hq] at hnd
  simp only [List.nodup_append, List.nodup_cons, List.mem_cons, not_or] at hnd
  obtain ⟨-, ⟨⟨hxy, hxB⟩, hyB, -⟩, hA⟩ := hnd
  exact ⟨hxy, fun hm => hA x hm x (.inl rfl) rfl, fun hm => hA y hm y (.inr (.inl rfl)) rfl,
    hxB, hyB⟩

variable [DecidableEq α]

/-- The level of an address that is not `d` is not changed by an update at `d`. -/
theorem lev_update_ne {d p : α} {x : Option ℕ} (h : p ≠ d) : update lev d x p = lev p :=
  Function.update_of_ne h _ _

/-- What is left when `d` loses its level. -/
theorem of_lev_update_none {d p : α} {l : ℕ} (hp : update lev d none p = some l) :
    p ≠ d ∧ lev p = some l := by
  by_cases hpd : p = d
  · simp [hpd] at hp
  · exact ⟨hpd, by rwa [lev_update_ne hpd] at hp⟩

/-! ## A new child -/

/-- `d` becomes the child number `i` of `q`. -/
structure Adds (L M : Links α) (q d : α) (i : ℕ) : Prop where
  children : M.children q = (L.children q).insertIdx i d
  children_ne : ∀ p, p ≠ q → p ≠ d → M.children p = L.children p
  parent : M.parent d = some q
  parent_ne : ∀ p, p ≠ d → M.parent p = L.parent p

namespace Adds

variable {q d : α} {i k : ℕ} (a : Adds L M q d i)
include a

theorem shape (h : Shape L lev root height) (hq : lev q = some (k + 1)) (hd : lev d = none)
    (hi : i ≤ (L.children q).length) (hnew : k ≠ 0 → M.children d = []) :
    Shape M (update lev d (some k)) root height := by
  have hne {p l} (hp : lev p = some l) : p ≠ d := ne_of_lev hp hd
  have hmem {c p : α} (hc : c ∈ L.children p) (hpd : p ≠ d) : c ∈ M.children p := by
    by_cases hpq : p = q
    · subst hpq
      rw [a.children, List.mem_insertIdx hi]
      exact .inr hc
    · rwa [a.children_ne p hpq hpd]
  refine ⟨?_, ?_, ?_, ?_, ?_, ?_⟩
  · rw [lev_update_ne (hne h.root_lev), h.root_lev]
  · rw [a.parent_ne _ (hne h.root_lev), h.root_parent]
  · intro p l hp
    by_cases hpd : p = d
    · subst hpd
      obtain rfl : k = l := by simpa using hp
      have := h.lev_le hq
      omega
    · exact h.lev_le (by rwa [lev_update_ne hpd] at hp)
  · intro p l c hp hc
    by_cases hpd : p = d
    · subst hpd
      obtain rfl : k = l + 1 := by simpa using hp
      simp [hnew (by omega)] at hc
    rw [lev_update_ne hpd] at hp
    by_cases hcd : c = d
    · subst hcd
      by_cases hpq : p = q
      · subst hpq
        obtain rfl : k = l := by simpa [hq] using hp
        exact ⟨by simp, a.parent⟩
      · rw [a.children_ne p hpq hpd] at hc
        exact absurd rfl (hne (h.child hp hc).1)
    · have hc' : c ∈ L.children p := by
        by_cases hpq : p = q
        · subst hpq
          rw [a.children, List.mem_insertIdx hi] at hc
          exact hc.resolve_left hcd
        · rwa [a.children_ne p hpq hpd] at hc
      rw [lev_update_ne hcd, a.parent_ne c hcd]
      exact h.child hp hc'
  · intro p l hp hpr
    by_cases hpd : p = d
    · subst hpd
      obtain rfl : k = l := by simpa using hp
      refine ⟨q, a.parent, by rwa [lev_update_ne (hne hq)], ?_⟩
      rw [a.children, List.mem_insertIdx hi]
      exact .inl rfl
    · rw [lev_update_ne hpd] at hp
      obtain ⟨r, hr, hlev, hc⟩ := h.parent hp hpr
      exact ⟨r, by rwa [a.parent_ne p hpd], by rwa [lev_update_ne (hne hlev)], hmem hc (hne hlev)⟩
  · intro p l hp
    by_cases hpd : p = d
    · subst hpd
      obtain rfl : k = l + 1 := by simpa using hp
      simp [hnew (by omega)]
    rw [lev_update_ne hpd] at hp
    by_cases hpq : p = q
    · subst hpq
      rw [a.children, (List.perm_insertIdx d _ hi).nodup_iff, List.nodup_cons]
      exact ⟨fun hc => hne (h.child hp hc).1 rfl, h.nodup hp⟩
    · rw [a.children_ne p hpq hpd]
      exact h.nodup hp

/-- A new node without children does not change the leaves. -/
theorem leaves_eq (h : Shape L lev root height) (hq : lev q = some (k + 1)) (hd : lev d = none)
    (hi : i ≤ (L.children q).length) (hk : k ≠ 0) (hnew : M.children d = []) {l : ℕ} {p : α}
    (hp : lev p = some l) : leaves M l p = leaves L l p := by
  induction l generalizing p with
  | zero => rfl
  | succ l ih =>
    have hpd : p ≠ d := ne_of_lev hp hd
    have hcongr : ∀ cs : List α, (∀ c ∈ cs, c ∈ L.children p) →
        cs.flatMap (leaves M l) = cs.flatMap (leaves L l) :=
      fun cs hcs => List.flatMap_congr fun c hc => ih (h.child hp (hcs c hc)).1
    by_cases hpq : p = q
    · subst hpq
      obtain rfl : l = k := by simpa [hp] using hq
      have hempty : leaves M l d = [] := by
        obtain ⟨l, rfl⟩ := Nat.exists_eq_succ_of_ne_zero hk
        simp [leaves_succ, hnew]
      rw [leaves_succ, leaves_succ, a.children, insertIdx_eq_take_drop d hi,
        List.flatMap_append, List.flatMap_cons, hempty, List.nil_append,
        hcongr _ fun c hc => List.mem_of_mem_take hc, hcongr _ fun c hc => List.mem_of_mem_drop hc,
        ← List.flatMap_append, List.take_append_drop]
    · rw [leaves_succ, leaves_succ, a.children_ne p hpq hpd]
      exact hcongr _ fun c hc => hc

/-- The value of the new child is missing at its parent. -/
theorem sumsTo {f u : ℕ → α → ℤ} (h : Shape L lev root height) (hs : SumsTo L lev f none 0)
    (hq : lev q = some (k + 1)) (hd : lev d = none) (hi : i ≤ (L.children q).length)
    (hnew : k ≠ 0 → M.children d = [] ∧ u k d = 0)
    (hf : ∀ l p, lev p = some l → u l p = f l p) :
    SumsTo M (update lev d (some k)) u (some q) (u k d) := by
  intro p l hp
  by_cases hpd : p = d
  · subst hpd
    obtain rfl : k = l + 1 := by simpa using hp
    have hqd : q ≠ p := by
      rintro rfl
      simp [hd] at hq
    simp [(hnew (by omega)).1, (hnew (by omega)).2, hqd]
  rw [lev_update_ne hpd] at hp
  have hsum := hs p l hp
  have hmap : (L.children p).map (u l) = (L.children p).map (f l) :=
    List.map_congr_left fun c hc => hf l c (h.child hp hc).1
  by_cases hpq : p = q
  · subst hpq
    obtain rfl : l = k := by simpa [hp] using hq
    have hperm := ((List.perm_insertIdx d _ hi).map (u l)).sum_eq
    rw [a.children, hperm, List.map_cons, List.sum_cons, hmap, hsum, hf _ p hp]
    simp [add_comm]
  · have hqp : some q ≠ some p := by simpa using Ne.symm hpq
    rw [a.children_ne p hpq hpd, hmap, hsum, hf _ p hp, if_neg hqp]
    simp

end Adds

/-! ## A removed child -/

/-- `d` is no longer a child of `q`. What `d` itself holds does not matter. -/
structure Removes (L M : Links α) (q d : α) : Prop where
  children : M.children q = (L.children q).erase d
  children_ne : ∀ p, p ≠ q → p ≠ d → M.children p = L.children p
  parent_ne : ∀ p, p ≠ d → M.parent p = L.parent p

namespace Removes

variable {q d : α} {k : ℕ} (r : Removes L M q d)
include r

theorem mem_iff (h : Shape L lev root height) {p c : α} {l : ℕ} (hp : lev p = some (l + 1))
    (hpd : p ≠ d) (hcd : c ≠ d) : c ∈ M.children p ↔ c ∈ L.children p := by
  by_cases hpq : p = q
  · subst hpq
    rw [r.children, (h.nodup hp).mem_erase_iff]
    exact ⟨And.right, fun hc => ⟨hcd, hc⟩⟩
  · rw [r.children_ne p hpq hpd]

theorem shape (h : Shape L lev root height) (hd : lev d = some k) (hdq : L.parent d = some q)
    (hempty : k ≠ 0 → L.children d = []) : Shape M (update lev d none) root height := by
  have hlev {p l} (hp : update lev d none p = some l) : p ≠ d ∧ lev p = some l :=
    of_lev_update_none hp
  have hroot : root ≠ d := by
    rintro rfl
    simp [h.root_parent] at hdq
  obtain ⟨hq, hmemd⟩ := h.of_parent hd hdq
  refine ⟨?_, ?_, ?_, ?_, ?_, ?_⟩
  · rw [lev_update_ne hroot, h.root_lev]
  · rw [r.parent_ne _ hroot, h.root_parent]
  · exact fun hp => h.lev_le (hlev hp).2
  · intro p l c hp hc
    obtain ⟨hpd, hp'⟩ := hlev hp
    have hcd : c ≠ d := by
      rintro rfl
      by_cases hpq : p = q
      · subst hpq
        rw [r.children, (h.nodup hp').mem_erase_iff] at hc
        exact hc.1 rfl
      · rw [r.children_ne p hpq hpd] at hc
        exact hpq (by simpa [hdq] using (h.child hp' hc).2.symm)
    rw [lev_update_ne hcd, r.parent_ne c hcd]
    exact h.child hp' ((r.mem_iff h hp' hpd hcd).1 hc)
  · intro p l hp hpr
    obtain ⟨hpd, hp⟩ := hlev hp
    obtain ⟨s, hs, hls, hc⟩ := h.parent hp hpr
    have hsd : s ≠ d := by
      rintro rfl
      obtain rfl : l + 1 = k := by simpa [hls] using hd
      simp [hempty (by omega)] at hc
    exact ⟨s, by rwa [r.parent_ne p hpd], by rwa [lev_update_ne hsd],
      (r.mem_iff h hls hsd hpd).2 hc⟩
  · intro p l hp
    obtain ⟨hpd, hp⟩ := hlev hp
    by_cases hpq : p = q
    · subst hpq
      rw [r.children]
      exact (h.nodup hp).erase d
    · rw [r.children_ne p hpq hpd]
      exact h.nodup hp

/-- A node without children can go without a change of the leaves. -/
theorem leaves_eq (h : Shape L lev root height) (hd : lev d = some k) (hdq : L.parent d = some q)
    (hk : k ≠ 0) (hempty : L.children d = []) {l : ℕ} {p : α} (hp : lev p = some l) (hpd : p ≠ d) :
    leaves M l p = leaves L l p := by
  induction l generalizing p with
  | zero => rfl
  | succ l ih =>
    have hcongr : ∀ cs : List α, (∀ c ∈ cs, c ∈ L.children p) → d ∉ cs →
        cs.flatMap (leaves M l) = cs.flatMap (leaves L l) :=
      fun cs hcs hdc => List.flatMap_congr fun c hc =>
        ih (h.child hp (hcs c hc)).1 (by rintro rfl; exact hdc hc)
    have hmem {r : α} {j : ℕ} (hr : lev r = some (j + 1)) (hdr : d ∈ L.children r) : r = q := by
      simpa [hdq] using (h.child hr hdr).2.symm
    by_cases hpq : p = q
    · subst hpq
      obtain ⟨hq, hmemd⟩ := h.of_parent hd hdq
      obtain rfl : l = k := by simpa [hp] using hq
      obtain ⟨A, B, hAB⟩ := List.append_of_mem hmemd
      have hnd := h.nodup hp
      rw [hAB, List.nodup_middle, List.nodup_cons, List.mem_append, not_or] at hnd
      have hdl : leaves L l d = [] := by
        obtain ⟨l, rfl⟩ := Nat.exists_eq_succ_of_ne_zero hk
        simp [leaves_succ, hempty]
      rw [leaves_succ, leaves_succ, r.children, hAB, List.erase_append_right _ hnd.1.1,
        List.erase_cons_head, List.flatMap_append, List.flatMap_append, List.flatMap_cons, hdl,
        hcongr A (fun c hc => by simp [hAB, hc]) hnd.1.1,
        hcongr B (fun c hc => by simp [hAB, hc]) hnd.1.2, List.nil_append]
    · rw [leaves_succ, leaves_succ, r.children_ne p hpq hpd]
      exact hcongr _ (fun c hc => hc) fun hdp => hpq (hmem hp hdp)

/-- The value of the removed child is too much at its parent. -/
theorem sumsTo {f u : ℕ → α → ℤ} (h : Shape L lev root height) (hs : SumsTo L lev f none 0)
    (hd : lev d = some k) (hdq : L.parent d = some q)
    (hf : ∀ l p, lev p = some l → p ≠ d → u l p = f l p) :
    SumsTo M (update lev d none) u (some q) (-f k d) := by
  intro p l hp
  have hpd : p ≠ d := by
    rintro rfl
    simp at hp
  rw [lev_update_ne hpd] at hp
  have hsum := hs p l hp
  obtain ⟨hq, hmemd⟩ := h.of_parent hd hdq
  by_cases hpq : p = q
  · subst hpq
    obtain rfl : l = k := by simpa [hp] using hq
    have hperm := ((List.perm_cons_erase hmemd).map (f l)).sum_eq
    have hmap : ((L.children p).erase d).map (u l) = ((L.children p).erase d).map (f l) :=
      List.map_congr_left fun c hc =>
        hf l c (h.child hp (List.mem_of_mem_erase hc)).1 fun hcd =>
          ((h.nodup hp).mem_erase_iff.1 hc).1 hcd
    rw [List.map_cons, List.sum_cons, hsum] at hperm
    rw [r.children, hmap, hf _ p hp hpd]
    simp only [reduceCtorEq, if_false, if_true, add_zero] at hperm ⊢
    omega
  · have hqp : some q ≠ some p := by simpa using Ne.symm hpq
    have hdp : d ∉ L.children p := fun hdp => hpq (by simpa [hdq] using (h.child hp hdp).2.symm)
    rw [r.children_ne p hpq hpd, h.map_children_congr hp hdp hf, hsum, hf _ p hp hpd, if_neg hqp]
    simp

end Removes

/-! ## Children moved between neighbours -/

/-- The children of `x` and of its right neighbour `y` are divided between the two anew. -/
structure Redistributes (L M : Links α) (x y : α) : Prop where
  append : M.children x ++ M.children y = L.children x ++ L.children y
  children_ne : ∀ p, p ≠ x → p ≠ y → M.children p = L.children p
  parent_left : ∀ c ∈ M.children x, M.parent c = some x
  parent_right : ∀ c ∈ M.children y, M.parent c = some y
  parent_ne : ∀ c, c ∉ L.children x → c ∉ L.children y → M.parent c = L.parent c

namespace Redistributes

variable {x y q : α} {k : ℕ} {A B : List α} (d : Redistributes L M x y)
  (h : Shape L lev root height) (hx : lev x = some (k + 1)) (hy : lev y = some (k + 1))
  (hxq : L.parent x = some q) (hq : L.children q = A ++ x :: y :: B)
include d

omit [DecidableEq α] in
theorem mem_or (c : α) :
    c ∈ M.children x ∨ c ∈ M.children y ↔ c ∈ L.children x ∨ c ∈ L.children y := by
  rw [← List.mem_append, ← List.mem_append, d.append]

include h hx hy hxq hq in
theorem shape : Shape M lev root height := by
  have hlevq := (h.of_parent hx hxq).1
  obtain ⟨hxy, -⟩ := h.neighbours hlevq hq
  have hkids {c : α} (hc : c ∈ L.children x ∨ c ∈ L.children y) : lev c = some k :=
    hc.elim (fun hc => (h.child hx hc).1) fun hc => (h.child hy hc).1
  have hown {c p : α} {l : ℕ} (hp : lev p = some (l + 1)) (hc : c ∈ L.children p)
      (hpx : p ≠ x) (hpy : p ≠ y) : M.parent c = some p := by
    have hpar := (h.child hp hc).2
    rw [d.parent_ne c, hpar]
    · exact fun hcx => hpx (by simpa [hpar] using (h.child hx hcx).2)
    · exact fun hcy => hpy (by simpa [hpar] using (h.child hy hcy).2)
  refine ⟨h.root_lev, ?_, h.lev_le, ?_, ?_, ?_⟩
  · have hne {p : α} (hp : lev p = some (k + 1)) : root ∉ L.children p := fun hr => by
      simpa [h.root_parent] using (h.child hp hr).2
    rw [d.parent_ne root (hne hx) (hne hy), h.root_parent]
  · intro p l c hp hc
    by_cases hpx : p = x
    · subst hpx
      obtain rfl : k = l := by simpa [hx] using hp
      exact ⟨hkids ((d.mem_or c).1 (.inl hc)), d.parent_left c hc⟩
    by_cases hpy : p = y
    · subst hpy
      obtain rfl : k = l := by simpa [hy] using hp
      exact ⟨hkids ((d.mem_or c).1 (.inr hc)), d.parent_right c hc⟩
    rw [d.children_ne p hpx hpy] at hc
    exact ⟨(h.child hp hc).1, hown hp hc hpx hpy⟩
  · intro p l hp hpr
    obtain ⟨s, hs, hls, hps⟩ := h.parent hp hpr
    by_cases hm : s = x ∨ s = y
    · have hp' : p ∈ L.children x ∨ p ∈ L.children y := by
        rcases hm with rfl | rfl
        · exact .inl hps
        · exact .inr hps
      obtain rfl : l = k := by simpa [hp] using hkids hp'
      rcases (d.mem_or p).2 hp' with hpx | hpy
      · exact ⟨x, d.parent_left p hpx, hx, hpx⟩
      · exact ⟨y, d.parent_right p hpy, hy, hpy⟩
    · rw [not_or] at hm
      exact ⟨s, hown hls hps hm.1 hm.2, hls, by rwa [d.children_ne s hm.1 hm.2]⟩
  · intro p l hp
    have hboth : (M.children x ++ M.children y).Nodup := by
      rw [d.append, List.nodup_append]
      refine ⟨h.nodup hx, h.nodup hy, fun a hax b hby hab => hxy ?_⟩
      subst hab
      simpa [(h.child hx hax).2] using (h.child hy hby).2
    by_cases hpx : p = x
    · subst hpx
      exact (List.nodup_append.1 hboth).1
    by_cases hpy : p = y
    · subst hpy
      exact (List.nodup_append.1 hboth).2.1
    rw [d.children_ne p hpx hpy]
    exact h.nodup hp

include h hx hy hxq hq in
/-- Only the two nodes see their leaves change. -/
theorem leaves_eq {l : ℕ} {p : α} (hp : lev p = some l) (hpx : p ≠ x) (hpy : p ≠ y) :
    leaves M l p = leaves L l p := by
  have hlevq := (h.of_parent hx hxq).1
  obtain ⟨hxy, hxA, hyA, hxB, hyB⟩ := h.neighbours hlevq hq
  have hyq : L.parent y = some q := (h.child hlevq (by simp [hq])).2
  induction l using Nat.strong_induction_on generalizing p with
  | _ l ih =>
    obtain _ | l := l
    · rfl
    have hcongr : ∀ cs : List α, (∀ c ∈ cs, c ∈ L.children p) → x ∉ cs → y ∉ cs →
        cs.flatMap (leaves M l) = cs.flatMap (leaves L l) :=
      fun cs hcs hxc hyc => List.flatMap_congr fun c hc => ih l (by omega) (h.child hp (hcs c hc)).1
        (by rintro rfl; exact hxc hc) (by rintro rfl; exact hyc hc)
    by_cases hpq : p = q
    · subst hpq
      obtain rfl : l = k + 1 := by simpa [hlevq] using hp.symm
      have hpair : leaves M (k + 1) x ++ leaves M (k + 1) y =
          leaves L (k + 1) x ++ leaves L (k + 1) y := by
        simp only [leaves_succ, ← List.flatMap_append, d.append]
        refine List.flatMap_congr fun c hc => ?_
        have hck : lev c = some k := (List.mem_append.1 hc).elim
          (fun hc => (h.child hx hc).1) fun hc => (h.child hy hc).1
        exact ih k (by omega) hck (by rintro rfl; simp [hx] at hck)
          (by rintro rfl; simp [hy] at hck)
      rw [leaves_succ, leaves_succ, d.children_ne p hpx hpy, hq]
      simp only [List.flatMap_append, List.flatMap_cons]
      rw [hcongr A (fun c hc => by simp [hq, hc]) hxA hyA,
        hcongr B (fun c hc => by simp [hq, hc]) hxB hyB, ← List.append_assoc _ _ (B.flatMap _),
        hpair, List.append_assoc]
    · rw [leaves_succ, leaves_succ, d.children_ne p hpx hpy]
      have hnot {z : α} (hz : L.parent z = some q) : z ∉ L.children p := fun hzp =>
        hpq (by simpa [hz] using (h.child hp hzp).2.symm)
      exact hcongr _ (fun c hc => hc) (hnot hxq) (hnot hyq)

include h hx hy hxq hq in
/-- Sums stay right when the two nodes get the sums over their new children. -/
theorem sumsTo {f u : ℕ → α → ℤ} (hs : SumsTo L lev f none 0)
    (hfx : u (k + 1) x = ((M.children x).map (f k)).sum)
    (hfy : u (k + 1) y = ((M.children y).map (f k)).sum)
    (hf : ∀ l p, lev p = some l → p ≠ x → p ≠ y → u l p = f l p) :
    SumsTo M lev u none 0 := by
  have hlevq := (h.of_parent hx hxq).1
  obtain ⟨hxy, hxA, hyA, hxB, hyB⟩ := h.neighbours hlevq hq
  have hyq : L.parent y = some q := (h.child hlevq (by simp [hq])).2
  have hqx : q ≠ x := by rintro rfl; simp [hx] at hlevq
  have hqy : q ≠ y := by rintro rfl; simp [hy] at hlevq
  have hcongr {l : ℕ} {p : α} (hp : lev p = some (l + 1)) : ∀ cs : List α,
      (∀ c ∈ cs, lev c = some l) → x ∉ cs → y ∉ cs → cs.map (u l) = cs.map (f l) :=
    fun cs hcs hxc hyc => List.map_congr_left fun c hc => hf l c (hcs c hc)
      (by rintro rfl; exact hxc hc) (by rintro rfl; exact hyc hc)
  have hkids : ∀ c, c ∈ M.children x ∨ c ∈ M.children y → lev c = some k ∧ c ≠ x ∧ c ≠ y := by
    intro c hc
    have hck : lev c = some k := ((d.mem_or c).1 hc).elim
      (fun hc => (h.child hx hc).1) fun hc => (h.child hy hc).1
    exact ⟨hck, by rintro rfl; simp [hx] at hck, by rintro rfl; simp [hy] at hck⟩
  intro p l hp
  simp only [reduceCtorEq, if_false, add_zero]
  by_cases hpx : p = x
  · subst hpx
    obtain rfl : k = l := by simpa [hx] using hp
    rw [hfx, hcongr hx _ (fun c hc => (hkids c (.inl hc)).1)
      (fun hc => (hkids _ (.inl hc)).2.1 rfl) fun hc => (hkids _ (.inl hc)).2.2 rfl]
  by_cases hpy : p = y
  · subst hpy
    obtain rfl : k = l := by simpa [hy] using hp
    rw [hfy, hcongr hy _ (fun c hc => (hkids c (.inr hc)).1)
      (fun hc => (hkids _ (.inr hc)).2.1 rfl) fun hc => (hkids _ (.inr hc)).2.2 rfl]
  have hsum := hs p l hp
  simp only [reduceCtorEq, if_false, add_zero] at hsum
  rw [d.children_ne p hpx hpy, hf _ p hp hpx hpy, ← hsum]
  have hlev : ∀ c ∈ L.children p, lev c = some l := fun c hc => (h.child hp hc).1
  by_cases hpq : p = q
  · subst hpq
    obtain rfl : l = k + 1 := by simpa [hlevq] using hp.symm
    have hsx := hs x k hx
    have hsy := hs y k hy
    have happ : ((M.children x).map (f k)).sum + ((M.children y).map (f k)).sum =
        ((L.children x).map (f k)).sum + ((L.children y).map (f k)).sum := by
      rw [← List.sum_append, ← List.map_append, d.append, List.map_append, List.sum_append]
    rw [hq] at hlev ⊢
    simp only [List.map_append, List.map_cons, List.sum_append, List.sum_cons, reduceCtorEq,
      if_false, add_zero] at *
    rw [hcongr hp A (fun c hc => hlev c (by simp [hc])) hxA hyA,
      hcongr hp B (fun c hc => hlev c (by simp [hc])) hxB hyB, hfx, hfy]
    omega
  · have hnot {z : α} (hz : L.parent z = some q) : z ∉ L.children p := fun hzp =>
      hpq (by simpa [hz] using (h.child hp hzp).2.symm)
    rw [hcongr hp _ hlev (hnot hxq) (hnot hyq)]

end Redistributes

/-! ## A new root and a removed root -/

/-- `r` becomes the parent of the root `root`. -/
structure Grows (L M : Links α) (root r : α) : Prop where
  children : M.children r = [root]
  children_ne : ∀ p, p ≠ r → M.children p = L.children p
  parent : M.parent root = some r
  parent_new : M.parent r = none
  parent_ne : ∀ p, p ≠ root → p ≠ r → M.parent p = L.parent p

namespace Grows

variable {r : α} (g : Grows L M root r) (h : Shape L lev root height) (hr : lev r = none)
include g h hr

theorem shape : Shape M (update lev r (some (height + 1))) r (height + 1) := by
  have hroot := ne_of_lev h.root_lev hr
  have hlev {p l} (hp : update lev r (some (height + 1)) p = some l) :
      p = r ∧ l = height + 1 ∨ p ≠ r ∧ lev p = some l := by
    by_cases hpr : p = r
    · subst hpr
      exact .inl ⟨rfl, by simpa using hp.symm⟩
    · exact .inr ⟨hpr, by rwa [lev_update_ne hpr] at hp⟩
  refine ⟨by simp, g.parent_new, ?_, ?_, ?_, ?_⟩
  · intro p l hp
    obtain ⟨-, rfl⟩ | ⟨-, hp⟩ := hlev hp
    · exact le_rfl
    · exact (h.lev_le hp).trans (Nat.le_succ _)
  · intro p l c hp hc
    obtain ⟨rfl, hl⟩ | ⟨hpr, hp'⟩ := hlev hp
    · obtain rfl : l = height := by omega
      obtain rfl : c = root := by simpa [g.children] using hc
      exact ⟨by rw [lev_update_ne hroot, h.root_lev], g.parent⟩
    · rw [g.children_ne p hpr] at hc
      obtain ⟨hlc, hpc⟩ := h.child hp' hc
      have hcroot : c ≠ root := by
        rintro rfl
        simp [h.root_parent] at hpc
      rw [lev_update_ne (ne_of_lev hlc hr), g.parent_ne c hcroot (ne_of_lev hlc hr)]
      exact ⟨hlc, hpc⟩
  · intro p l hp hpr
    rw [lev_update_ne hpr] at hp
    by_cases hproot : p = root
    · subst hproot
      obtain rfl : l = height := by simpa [h.root_lev] using hp.symm
      exact ⟨r, g.parent, by simp, by simp [g.children]⟩
    · obtain ⟨s, hs, hls, hps⟩ := h.parent hp hproot
      have hsr := ne_of_lev hls hr
      exact ⟨s, by rwa [g.parent_ne p hproot hpr], by rwa [lev_update_ne hsr],
        by rwa [g.children_ne s hsr]⟩
  · intro p l hp
    obtain ⟨rfl, -⟩ | ⟨hpr, hp'⟩ := hlev hp
    · simp [g.children]
    · rw [g.children_ne p hpr]
      exact h.nodup hp'

omit [DecidableEq α] in
theorem leaves_eq {l : ℕ} {p : α} (hp : lev p = some l) : leaves M l p = leaves L l p := by
  induction l generalizing p with
  | zero => rfl
  | succ l ih =>
    rw [leaves_succ, leaves_succ, g.children_ne p (ne_of_lev hp hr)]
    exact List.flatMap_congr fun c hc => ih (h.child hp hc).1

omit [DecidableEq α] in
theorem leaves_root : leaves M (height + 1) r = leaves L height root := by
  simp [leaves_succ, g.children, g.leaves_eq h hr h.root_lev]

theorem sumsTo {f u : ℕ → α → ℤ} (hs : SumsTo L lev f none 0)
    (hfr : u (height + 1) r = f height root)
    (hf : ∀ l p, lev p = some l → u l p = f l p) :
    SumsTo M (update lev r (some (height + 1))) u none 0 := by
  intro p l hp
  simp only [reduceCtorEq, if_false, add_zero]
  by_cases hpr : p = r
  · subst hpr
    obtain rfl : l = height := by simpa using hp.symm
    simp [g.children, hfr, hf _ root h.root_lev]
  · rw [lev_update_ne hpr] at hp
    have hsum := hs p l hp
    simp only [reduceCtorEq, if_false, add_zero] at hsum
    rw [g.children_ne p hpr, hf _ p hp, ← hsum]
    exact congrArg _ (List.map_congr_left fun c hc => hf l c (h.child hp hc).1)

end Grows

/-- The root gives way to its only child `c`. -/
structure Shrinks (L M : Links α) (root c : α) : Prop where
  only : L.children root = [c]
  children_ne : ∀ p, p ≠ root → M.children p = L.children p
  parent : M.parent c = none
  parent_ne : ∀ p, p ≠ c → p ≠ root → M.parent p = L.parent p

namespace Shrinks

variable {c : α} (s : Shrinks L M root c) (h : Shape L lev root (height + 1))
include s h

omit [DecidableEq α] in
theorem lev_child : lev c = some height ∧ L.parent c = some root :=
  h.child h.root_lev (by simp [s.only])

theorem shape : Shape M (update lev root none) c height := by
  obtain ⟨hlc, hpc⟩ := s.lev_child h
  have hcr : c ≠ root := by
    rintro rfl
    simp [h.root_lev] at hlc
  refine ⟨by rw [lev_update_ne hcr, hlc], s.parent, ?_, ?_, ?_, ?_⟩
  · intro p l hp
    obtain ⟨hpr, hp⟩ := of_lev_update_none hp
    have := h.lev_le hp
    rcases Nat.lt_or_ge height l with hlt | hge
    · obtain rfl : l = height + 1 := by omega
      exact absurd (h.eq_root hp) hpr
    · exact hge
  · intro p l d hp hd
    obtain ⟨hpr, hp'⟩ := of_lev_update_none hp
    rw [s.children_ne p hpr] at hd
    obtain ⟨hld, hpd⟩ := h.child hp' hd
    have hdr : d ≠ root := by
      rintro rfl
      simp [h.root_parent] at hpd
    have hdc : d ≠ c := by
      rintro rfl
      exact hpr (by simpa [hpd] using hpc)
    rw [lev_update_ne hdr, s.parent_ne d hdc hdr]
    exact ⟨hld, hpd⟩
  · intro p l hp hpc'
    obtain ⟨hpr, hp'⟩ := of_lev_update_none hp
    obtain ⟨q, hq, hlq, hmem⟩ := h.parent hp' hpr
    have hqr : q ≠ root := by
      rintro rfl
      exact hpc' (by simpa [s.only] using hmem)
    exact ⟨q, by rwa [s.parent_ne p hpc' hpr], by rwa [lev_update_ne hqr],
      by rwa [s.children_ne q hqr]⟩
  · intro p l hp
    obtain ⟨hpr, hp'⟩ := of_lev_update_none hp
    rw [s.children_ne p hpr]
    exact h.nodup hp'

omit [DecidableEq α] in
theorem leaves_eq {l : ℕ} {p : α} (hp : lev p = some l) (hpr : p ≠ root) :
    leaves M l p = leaves L l p := by
  induction l generalizing p with
  | zero => rfl
  | succ l ih =>
    rw [leaves_succ, leaves_succ, s.children_ne p hpr]
    refine List.flatMap_congr fun d hd => ih (h.child hp hd).1 ?_
    rintro rfl
    simpa [h.root_parent] using (h.child hp hd).2

omit [DecidableEq α] in
theorem leaves_root : leaves M height c = leaves L (height + 1) root := by
  obtain ⟨hlc, -⟩ := s.lev_child h
  have hcr : c ≠ root := by
    rintro rfl
    simp [h.root_lev] at hlc
  simp [leaves_succ L, s.only, s.leaves_eq h hlc hcr]

theorem sumsTo {f u : ℕ → α → ℤ} (hs : SumsTo L lev f none 0)
    (hf : ∀ l p, lev p = some l → p ≠ root → u l p = f l p) :
    SumsTo M (update lev root none) u none 0 := by
  intro p l hp
  obtain ⟨hpr, hp'⟩ := of_lev_update_none hp
  have hsum := hs p l hp'
  rw [s.children_ne p hpr, hf _ p hp' hpr, ← hsum]
  refine congrArg _ (List.map_congr_left fun d hd => hf l d (h.child hp' hd).1 ?_)
  rintro rfl
  simpa [h.root_parent] using (h.child hp' hd).2

end Shrinks

end LevelTree
