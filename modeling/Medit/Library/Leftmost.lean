import Mathlib.Data.List.Basic
import Mathlib.Data.List.Pairwise
import Mathlib.Data.List.Infix

/-!
# Leftmost choices that do not overlap

Ranges of one width begin at the places of a list. A scan from the left takes each one that does not
begin inside the last one that it took.

## Main definitions

* `select` — the scan.
* `strstr` — the first place of a list in another one.

## Main results

* `select_unique` — a choice without overlaps that leaves no range free is the leftmost one.
* `filter_select_iff` — what a scan over fewer places takes.
* `select_strstr` — the scan takes the first occurrence, and goes on behind it.
-/

namespace Leftmost

/-- The places that a scan takes, where the next range may begin at `a`. -/
def select (width : ℕ) : ℕ → List ℕ → List ℕ
  | _, [] => []
  | a, q :: qs => if a ≤ q then q :: select width (q + width) qs else select width a qs

attribute [elab_as_elim] select.induct_unfolding

variable {width a c : ℕ} {qs l : List ℕ}

theorem select_sublist (width a : ℕ) (qs : List ℕ) : (select width a qs).Sublist qs := by
  fun_induction select width a qs with
  | case1 => exact .refl _
  | case2 a q qs h ih => exact ih.cons_cons q
  | case3 a q qs h ih => exact ih.cons q

theorem le_of_mem_select (h : c ∈ select width a qs) : a ≤ c := by
  fun_induction select width a qs with
  | case1 => simp at h
  | case2 a q qs hle ih =>
    rcases List.mem_cons.1 h with rfl | h
    · exact hle
    · have := ih h
      omega
  | case3 a q qs hle ih => exact ih h

theorem pairwise_select (width a : ℕ) (qs : List ℕ) :
    (select width a qs).Pairwise fun q q' => q + width ≤ q' := by
  fun_induction select width a qs with
  | case1 => exact .nil
  | case2 a q qs h ih => exact .cons (fun _ hq => le_of_mem_select hq) ih
  | case3 a q qs h ih => exact ih

/-- Every place is in a range that was taken. -/
theorem exists_mem_select (hqs : qs.Pairwise (· < ·)) (hwidth : 0 < width) (hc : c ∈ qs)
    (ha : a ≤ c) : ∃ q ∈ select width a qs, q ≤ c ∧ c < q + width := by
  fun_induction select width a qs with
  | case1 => simp at hc
  | case2 a q qs h ih =>
    obtain ⟨hq, hqs⟩ := List.pairwise_cons.1 hqs
    by_cases hlt : c < q + width
    · refine ⟨q, by simp, ?_, hlt⟩
      rcases List.mem_cons.1 hc with rfl | hc
      · rfl
      · exact (hq c hc).le
    · have hc : c ∈ qs := by
        rcases List.mem_cons.1 hc with rfl | hc
        · omega
        · exact hc
      obtain ⟨x, hx, hxc⟩ := ih hqs hc (by omega)
      exact ⟨x, by simp [hx], hxc⟩
  | case3 a q qs h ih =>
    have hc : c ∈ qs := by
      rcases List.mem_cons.1 hc with rfl | hc
      · omega
      · exact hc
    exact ih (List.pairwise_cons.1 hqs).2 hc ha

/-- Ranges without overlaps such that every place is in one of them are the leftmost ones. -/
theorem select_unique (hqs : qs.Pairwise (· < ·)) (hwidth : 0 < width)
    (hl : l.Pairwise fun q q' => q + width ≤ q') (hmem : ∀ q ∈ l, q ∈ qs ∧ a ≤ q)
    (hcover : ∀ c ∈ qs, a ≤ c → ∃ q ∈ l, q ≤ c ∧ c < q + width) : l = select width a qs := by
  induction qs generalizing l a with
  | nil => exact List.eq_nil_iff_forall_not_mem.2 fun q hq => by simpa using (hmem q hq).1
  | cons q qs ih =>
    obtain ⟨hq, htail⟩ := List.pairwise_cons.1 hqs
    rw [select]
    split
    · next ha =>
      have hge : ∀ x ∈ l, q ≤ x := by
        intro x hx
        rcases List.mem_cons.1 (hmem x hx).1 with rfl | hx
        · rfl
        · exact (hq x hx).le
      -- the range that `q` is in is the first one, and begins there
      cases l with
      | nil =>
        obtain ⟨x, hx, -⟩ := hcover q (by simp) ha
        simp at hx
      | cons x l =>
        obtain ⟨hx, hl⟩ := List.pairwise_cons.1 hl
        have hxq : x = q := by
          obtain ⟨y, hy, hle, -⟩ := hcover q (by simp) ha
          have hge := hge x (by simp)
          rcases List.mem_cons.1 hy with rfl | hy
          · omega
          · have := hx y hy
            omega
        subst hxq
        rw [ih htail hl (fun y hy => ?_) fun c hc hle => ?_]
        · have := hx y hy
          refine ⟨(List.mem_cons.1 (hmem y (by simp [hy])).1).resolve_left (by omega), this⟩
        · obtain ⟨y, hy, hyc⟩ := hcover c (by simp [hc]) (by omega)
          rcases List.mem_cons.1 hy with rfl | hy
          · omega
          · exact ⟨y, hy, hyc⟩
    · next ha =>
      refine ih htail hl (fun x hx => ?_) fun c hc hle => hcover c (by simp [hc]) hle
      obtain ⟨hxmem, hxa⟩ := hmem x hx
      refine ⟨(List.mem_cons.1 hxmem).resolve_left ?_, hxa⟩
      rintro rfl
      exact ha hxa

/-- Which places of a scan over more places are those of a scan over the ones with `ok` and `r`. -/
theorem filter_select_iff {ok r : ℕ → Bool} (hqs : qs.Pairwise (· < ·)) (hwidth : 0 < width) :
    (select width a qs).filter ok = select width a (qs.filter fun q => ok q && r q) ↔
      (∀ q ∈ select width a qs, ok q → r q) ∧
        ∀ c ∈ qs, a ≤ c → ok c → r c → ∀ q ∈ select width a qs, q < c → c < q + width → ok q := by
  have hpair := pairwise_select width a qs
  constructor
  · intro h
    refine ⟨fun q hq hok => ?_, fun c hc hac hok hr q hq hqc hcq => ?_⟩
    · have hmem : q ∈ (select width a qs).filter ok := List.mem_filter.2 ⟨hq, hok⟩
      rw [h] at hmem
      have hfilter := (List.mem_filter.1 ((select_sublist ..).mem hmem)).2
      rw [Bool.and_eq_true] at hfilter
      exact hfilter.2
    · -- the range that `c` is in is the one at `q`
      obtain ⟨x, hx, hxc, hcx⟩ := exists_mem_select (hqs.filter fun q => ok q && r q) hwidth
        (List.mem_filter.2 ⟨hc, by simp [hok, hr]⟩) hac
      rw [← h] at hx
      obtain ⟨hx, hxok⟩ := List.mem_filter.1 hx
      have hqx : q = x := by
        by_contra hne
        have hsymm : Std.Symm fun y z : ℕ => y + width ≤ z ∨ z + width ≤ y :=
          ⟨fun _ _ => Or.symm⟩
        have hor : (select width a qs).Pairwise fun y z => y + width ≤ z ∨ z + width ≤ y :=
          hpair.imp Or.inl
        have := hor.forall hq hx hne
        omega
      rwa [hqx]
  · rintro ⟨hin, hfree⟩
    refine select_unique (hqs.filter _) hwidth (hpair.filter _) (fun q hq => ?_) fun c hc hac => ?_
    · obtain ⟨hq, hok⟩ := List.mem_filter.1 hq
      exact ⟨List.mem_filter.2 ⟨(select_sublist ..).mem hq, by simp [hok, hin q hq hok]⟩,
        le_of_mem_select hq⟩
    · obtain ⟨hc, hok⟩ := List.mem_filter.1 hc
      rw [Bool.and_eq_true] at hok
      obtain ⟨x, hx, hxc, hcx⟩ := exists_mem_select hqs hwidth hc hac
      refine ⟨x, List.mem_filter.2 ⟨hx, ?_⟩, hxc, hcx⟩
      rcases Nat.lt_or_eq_of_le hxc with hlt | rfl
      · exact hfree c hc hac hok.1 hok.2 x hx hlt hcx
      · exact hok.1

/-! ## Occurrences of a list -/

section Occurrences

variable {α : Type*} [DecidableEq α] (pattern : List α)

/-- The first place of `pattern`. -/
def strstr : List α → Option ℕ
  | [] => if pattern = [] then some 0 else none
  | c :: cs => if pattern <+: c :: cs then some 0 else (strstr cs).map (· + 1)

/-- All places of `pattern` in a text, also those that overlap. -/
def places (text : List α) : List ℕ :=
  (List.range text.length).filter fun q => pattern <+: text.drop q

variable {pattern} {text : List α} {i : ℕ}

theorem strstr_eq_some : strstr pattern text = some i ↔
    pattern <+: text.drop i ∧ i ≤ text.length ∧ ∀ j < i, ¬ pattern <+: text.drop j := by
  induction text generalizing i with
  | nil =>
    rw [strstr]
    split
    · next h =>
      subst h
      simp only [Option.some.injEq, List.drop_nil, List.prefix_rfl, List.length_nil, true_and]
      constructor
      · rintro rfl
        simp
      · rintro ⟨h, -⟩
        omega
    · next h => simp [h]
  | cons c cs ih =>
    rw [strstr]
    split
    · next h =>
      simp only [Option.some.injEq]
      constructor
      · rintro rfl
        exact ⟨h, by simp, by simp⟩
      · rintro ⟨-, -, hall⟩
        by_contra hne
        exact hall 0 (by omega) h
    · next h =>
      cases i with
      | zero => simp [h]
      | succ i =>
        simp only [Option.map_eq_some_iff, Nat.add_right_cancel_iff, exists_eq_right, ih,
          List.drop_succ_cons, List.length_cons, Nat.add_le_add_iff_right]
        refine and_congr_right fun _ => and_congr_right fun _ => ⟨fun hall j hj => ?_, fun hall j hj =>
          hall (j + 1) (by omega)⟩
        cases j with
        | zero => exact h
        | succ j => exact hall j (by omega)

theorem strstr_eq_none : strstr pattern text = none ↔ ∀ i ≤ text.length, ¬ pattern <+: text.drop i := by
  induction text with
  | nil => simp [strstr]
  | cons c cs ih =>
    rw [strstr]
    split
    · next h => simpa using ⟨0, by simp, h⟩
    · next h =>
      rw [Option.map_eq_none_iff, ih]
      refine ⟨fun hall i hi => ?_, fun hall i hi => hall (i + 1) (by simpa using hi)⟩
      cases i with
      | zero => exact h
      | succ i => exact hall i (by simpa using hi)

theorem pairwise_places (pattern text : List α) : (places pattern text).Pairwise (· < ·) :=
  List.pairwise_lt_range.filter _

theorem mem_places {q : ℕ} :
    q ∈ places pattern text ↔ q < text.length ∧ pattern <+: text.drop q := by
  simp [places]

theorem getLast?_eq_some_iff (hqs : qs.Pairwise (· < ·)) :
    qs.getLast? = some c ↔ c ∈ qs ∧ ∀ q ∈ qs, q ≤ c := by
  constructor
  · intro h
    obtain ⟨init, rfl⟩ := List.getLast?_eq_some_iff.1 h
    refine ⟨by simp, fun q hq => ?_⟩
    rcases List.mem_append.1 hq with hq | hq
    · exact ((List.pairwise_append.1 hqs).2.2 q hq c (by simp)).le
    · exact (List.mem_singleton.1 hq).le
  · rintro ⟨hc, hmax⟩
    rcases List.eq_nil_or_concat qs with rfl | ⟨init, q, rfl⟩
    · simp at hc
    rw [List.concat_eq_append] at hqs hc hmax ⊢
    have hle := hmax q (by simp)
    rcases List.mem_append.1 hc with hc | hc
    · have := (List.pairwise_append.1 hqs).2.2 c hc q (by simp)
      omega
    · rw [List.getLast?_concat, List.mem_singleton.1 hc]

theorem select_of_first (hqs : qs.Pairwise (· < ·)) {q : ℕ} (hq : q ∈ qs) (ha : a ≤ q)
    (hfirst : ∀ c ∈ qs, a ≤ c → q ≤ c) (hwidth : 0 < width) :
    select width a qs = q :: select width (q + width) qs := by
  induction qs with
  | nil => simp at hq
  | cons x qs ih =>
    obtain ⟨hx, hqs⟩ := List.pairwise_cons.1 hqs
    rw [select]
    split
    · next hax =>
      have hqx : q = x := by
        have hle := hfirst x (by simp) hax
        rcases List.mem_cons.1 hq with rfl | hq
        · rfl
        · have := hx q hq
          omega
      subst hqx
      rw [select, if_neg (by omega)]
    · next hax =>
      have hmem : q ∈ qs := (List.mem_cons.1 hq).resolve_left (by rintro rfl; exact hax ha)
      have hxq := hx q hmem
      rw [ih hqs hmem fun c hc => hfirst c (by simp [hc]), select.eq_def width (q + width) (x :: qs)]
      simp only
      rw [if_neg (by omega)]

/-- The scan takes the first occurrence behind `a`, and goes on behind it. -/
theorem select_strstr (hpattern : pattern ≠ []) (h : strstr pattern (text.drop a) = some i) :
    select pattern.length a (places pattern text) =
      (a + i) :: select pattern.length (a + i + pattern.length) (places pattern text) := by
  obtain ⟨hpre, -, hall⟩ := strstr_eq_some.1 h
  rw [List.drop_drop] at hpre
  have hpos : 0 < pattern.length := List.length_pos_iff.2 hpattern
  have hlen := hpre.length_le
  rw [List.length_drop] at hlen
  refine select_of_first (pairwise_places ..) (mem_places.2 ⟨by omega, hpre⟩) (by omega)
    (fun c hc hac => ?_) hpos
  by_contra hlt
  refine hall (c - a) (by omega) ?_
  rw [List.drop_drop, Nat.add_sub_cancel' hac]
  exact (mem_places.1 hc).2

theorem select_strstr_none (h : strstr pattern (text.drop a) = none) :
    select pattern.length a (places pattern text) = [] := by
  have hall := strstr_eq_none.1 h
  refine List.eq_nil_iff_forall_not_mem.2 fun c hc => ?_
  have hac := le_of_mem_select hc
  obtain ⟨hlt, hpre⟩ := mem_places.1 ((select_sublist ..).mem hc)
  refine hall (c - a) (by rw [List.length_drop]; omega) ?_
  rwa [List.drop_drop, Nat.add_sub_cancel' hac]

end Occurrences

end Leftmost
