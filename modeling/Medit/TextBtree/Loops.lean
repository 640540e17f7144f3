import Medit.TextBtree.Invariant

/-!
# The loops up to the root

After a change at a line or at a bottom node one number is wrong there: the sums of
the levels above do not hold yet. Each loop carries the gap one level up per round, and
past the root there is none.
-/

namespace Medit

open Function (update)
open LevelTree

theorem countBits_eq {n : ℕ} (h : n < 2 ^ 26) : countBits n = n := by
  simp only [countBits]
  omega

theorem countBits_sub {n m : ℕ} (hm : m ≤ n) (h : n < 2 ^ 26) :
    countBits ((n : ℤ) - m) = n - m := by
  simp only [countBits]
  omega

theorem guint_eq {n : ℕ} (h : n < 2 ^ 32) : guint n = n := by
  simp only [guint]
  omega

theorem guint_sub {n m : ℕ} (hm : m ≤ n) (h : n < 2 ^ 32) : guint ((n : ℤ) - m) = n - m := by
  simp only [guint]
  omega

namespace BTree

variable {t : BTree} {lev : Ptr → Option ℕ}

/-- `tmp->count++` up to the root closes a gap of one line. -/
theorem addCounts_spec (hs : Shape t.links lev t.root (t.depth + 1)) (fuel : ℕ)
    (count : Ptr → ℕ) {cur : Ptr} {k : ℕ}
    (h : SumsTo t.links lev (lineCount count) (some cur) 1) (hcur : lev cur = some (k + 1))
    (hb : ∀ {p l}, lev p = some (l + 1) → k ≤ l → count p + 1 < 2 ^ 26)
    (hfuel : t.depth + 1 ≤ fuel + k) :
    ∃ c, { t with count := count }.addCounts fuel (some cur) = some { t with count := c } ∧
      SumsTo t.links lev (lineCount c) none 0 := by
  induction fuel generalizing count cur k with
  | zero =>
    have := hs.lev_le hcur
    omega
  | succ fuel ih =>
    have hbits : countBits ((count cur : ℤ) + 1) = count cur + 1 := by
      exact_mod_cast countBits_eq (hb hcur le_rfl)
    have hstep := h.step hs (u := lineCount (update count cur (count cur + 1))) hcur (by simp)
      fun l p _ hpc => by cases l <;> simp [hpc]
    simp only [addCounts, setCount, hbits]
    by_cases hroot : cur = t.root
    · subst hroot
      rw [hs.root_parent] at hstep
      have hpar : t.parent t.root = none := hs.root_parent
      refine ⟨_, ?_, hstep.of_none none⟩
      cases fuel <;> simp [addCounts, hpar]
    · obtain ⟨q, hq, hlq, -⟩ := hs.parent hcur hroot
      rw [hq] at hstep
      rw [links_parent] at hq
      rw [hq]
      refine ih _ hstep hlq (fun {p l} hp hl => ?_) (by omega)
      rw [Function.update_of_ne]
      · exact hb hp (by omega)
      · rintro rfl
        rw [hcur] at hp
        simp only [Option.some.injEq] at hp
        omega

/-- The loop of `_moo_text_btree_delete` takes one line and its marks off every node above. -/
theorem dropCounts_spec (hs : Shape t.links lev t.root (t.depth + 1)) (fuel : ℕ)
    (count nMarks : Ptr → ℕ) {d cur : Ptr} {k : ℕ} (hd : lev d = none)
    (h : SumsTo t.links lev (lineCount count) (some cur) (-1))
    (hm : SumsTo t.links lev (markCount nMarks) (some cur) (-(nMarks d : ℤ)))
    (hcur : lev cur = some (k + 1))
    (hb : ∀ {p l}, lev p = some (l + 1) → k ≤ l → count p < 2 ^ 26 ∧ nMarks p < 2 ^ 32)
    (hfuel : t.depth + 1 ≤ fuel + k) :
    ∃ c m, { t with count := count, nMarks := nMarks }.dropCounts d fuel (some cur) =
        some { t with count := c, nMarks := m } ∧
      SumsTo t.links lev (lineCount c) none 0 ∧ SumsTo t.links lev (markCount m) none 0 ∧
      ∀ p, (∀ l, lev p ≠ some (l + 1)) → m p = nMarks p := by
  induction fuel generalizing count nMarks cur k with
  | zero =>
    have := hs.lev_le hcur
    omega
  | succ fuel ih =>
    have hdc : cur ≠ d := ne_of_lev hcur hd
    obtain ⟨hbc, hbm⟩ := hb hcur le_rfl
    have hone : 1 ≤ count cur := by
      have hsum := h.at_off hcur
      have hnn : 0 ≤ ((t.links.children cur).map (lineCount count k)).sum :=
        List.sum_nonneg fun x hx => by
          obtain ⟨c, -, rfl⟩ := List.mem_map.1 hx
          cases k <;> simp
      simp only [lineCount_succ] at hsum
      omega
    have hle : nMarks d ≤ nMarks cur := by
      have hsum := hm.at_off hcur
      have hnn : 0 ≤ ((t.links.children cur).map (markCount nMarks k)).sum :=
        List.sum_nonneg fun x hx => by
          obtain ⟨c, -, rfl⟩ := List.mem_map.1 hx
          simp
      simp only [markCount_apply] at hsum
      omega
    have hbits : countBits ((count cur : ℤ) - 1) = count cur - 1 := by
      exact_mod_cast countBits_sub hone hbc
    have huint := guint_sub hle hbm
    have hstep := h.step hs (u := lineCount (update count cur (count cur - 1))) hcur
      (by simp only [lineCount_succ, Function.update_self]; omega)
      fun l p _ hpc => by cases l <;> simp [hpc]
    have hmstep := hm.step hs (u := markCount (update nMarks cur (nMarks cur - nMarks d))) hcur
      (by simp only [markCount_apply, Function.update_self]; omega)
      fun l p _ hpc => by simp [hpc]
    simp only [dropCounts, setCount, setNMarks, hbits, gAssert_true hle, huint,
      Option.bind_eq_bind, Option.bind_some]
    by_cases hroot : cur = t.root
    · subst hroot
      rw [hs.root_parent] at hstep hmstep
      have hpar : t.parent t.root = none := hs.root_parent
      refine ⟨_, _, ?_, hstep.of_none none, hmstep.of_none none, fun p hp => ?_⟩
      · cases fuel <;> simp [dropCounts, hpar]
      · rw [Function.update_of_ne]
        rintro rfl
        exact hp _ hcur
    · obtain ⟨q, hq, hlq, -⟩ := hs.parent hcur hroot
      rw [hq] at hstep hmstep
      rw [links_parent] at hq
      replace hmstep : SumsTo t.links lev (markCount (update nMarks cur (nMarks cur - nMarks d)))
          (some q) (-(update nMarks cur (nMarks cur - nMarks d) d : ℤ)) := by
        rwa [Function.update_of_ne (Ne.symm hdc)]
      rw [hq]
      obtain ⟨c, m, heq, hc, hm', hsame⟩ := ih (update count cur (count cur - 1))
        (update nMarks cur (nMarks cur - nMarks d)) hstep hmstep hlq (fun {p l} hp hl => by
        have hpc : p ≠ cur := by
          rintro rfl
          rw [hcur] at hp
          simp only [Option.some.injEq] at hp
          omega
        rw [Function.update_of_ne hpc, Function.update_of_ne hpc]
        exact hb hp (by omega)) (by omega)
      refine ⟨c, m, heq, hc, hm', fun p hp => ?_⟩
      rw [hsame p hp, Function.update_of_ne]
      rintro rfl
      exact hp _ hcur

theorem toInt_eq {n : ℕ} (h : n < 2 ^ 31) : toInt n = n := if_pos h

/-- `_moo_text_btree_update_n_marks` changes a line and everything above it by `add`. The bounds
say that nothing above has fewer marks than are taken, or room for fewer than are added. -/
theorem addMarks_spec (hs : Shape t.links lev t.root (t.depth + 1)) (fuel : ℕ)
    (nMarks : Ptr → ℕ) {add : ℤ} (hadd : add ≠ 0) {cur : Ptr} {k : ℕ}
    (h : SumsTo t.links lev (markCount nMarks) (some cur) add) (hcur : lev cur = some k)
    (hb : ∀ {p l pre post}, lev p = some l → Under t.links cur k l p pre post →
      nMarks p < 2 ^ 31 ∧ 0 ≤ nMarks p + add ∧ nMarks p + add < 2 ^ 31)
    (hfuel : t.depth + 2 ≤ fuel + k) :
    ∃ m, { t with nMarks := nMarks }.addMarks add fuel (some cur) = some { t with nMarks := m } ∧
      SumsTo t.links lev (markCount m) none 0 ∧ (m cur : ℤ) = nMarks cur + add ∧
      ∀ p, p ≠ cur → (∀ l, lev p = some l → l ≤ k) → m p = nMarks p := by
  induction fuel generalizing nMarks cur k with
  | zero =>
    have := hs.lev_le hcur
    omega
  | succ fuel ih =>
    obtain ⟨hlt, hge, hlt'⟩ := hb hcur .here
    have hassert : 0 < add ∨ add < 0 ∧ -add ≤ toInt (nMarks cur) := by
      rw [toInt_eq hlt]
      omega
    have huint : ((guint ((nMarks cur : ℤ) + add) : ℕ) : ℤ) = nMarks cur + add := by
      simp only [guint]
      omega
    have hstep := h.step hs (u := markCount (update nMarks cur (guint ((nMarks cur : ℤ) + add))))
      hcur (by simpa using huint) fun l p _ hpc => by simp [hpc]
    simp only [addMarks, gAssert_true hassert, setNMarks, Option.bind_eq_bind, Option.bind_some]
    by_cases hroot : cur = t.root
    · subst hroot
      rw [hs.root_parent] at hstep
      have hpar : t.parent t.root = none := hs.root_parent
      refine ⟨_, ?_, hstep.of_none none, by simpa using huint, fun p hp _ => by simp [hp]⟩
      cases fuel <;> simp [addMarks, hpar]
    · obtain ⟨q, hq, hlq, hmem⟩ := hs.parent hcur hroot
      rw [hq] at hstep
      rw [links_parent] at hq
      rw [hq]
      have hqc : q ≠ cur := by
        rintro rfl
        simp [hcur] at hlq
      obtain ⟨A, B, hAB⟩ := List.append_of_mem hmem
      obtain ⟨m, heq, hm, -, hsame⟩ := ih _ hstep hlq (fun {p l pre post} hp hu => by
        rw [Function.update_of_ne]
        · exact hb hp (hu.snoc hAB)
        · rintro rfl
          have := hu.le
          rw [hcur] at hp
          simp only [Option.some.injEq] at hp
          omega) (by omega)
      refine ⟨m, heq, hm, ?_, fun p hpc hp => ?_⟩
      · rw [hsame cur (Ne.symm hqc) fun l hl => ?_, Function.update_self, huint]
        obtain rfl : k = l := by simpa [hcur] using hl
        omega
      · rw [hsame p ?_ fun l hl => (hp l hl).trans (Nat.le_succ k), Function.update_of_ne hpc]
        rintro rfl
        have := hp _ hlq
        omega

end BTree

end Medit
