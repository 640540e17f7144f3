import Mathlib.Algebra.BigOperators.Group.List.Basic
import Mathlib.Algebra.Group.Nat.Defs
import Mathlib.Algebra.GroupWithZero.Nat
import Mathlib.Algebra.Order.BigOperators.Group.List
import Mathlib.Algebra.Order.Group.Int
import Mathlib.Algebra.Order.Group.Nat
import Mathlib.Algebra.Ring.Int.Defs
import Mathlib.Data.Int.Init
import Mathlib.Data.List.Basic
import Mathlib.Data.List.Induction
import Mathlib.Data.List.Pairwise
import Mathlib.Data.List.Perm.Basic
import Mathlib.Order.Basic
import Mathlib.Order.Defs.LinearOrder

/-!
# Edits of a text

An edit puts a text in the place of a range of another one. Several edits that do not overlap have a
meaning as a whole, `replaceAll`: all ranges are replaced at once, and what is inserted at one place
comes in the order of the edits. Done one after another from the back they come to the same.

## Main definitions

* `Edit`, `Edit.apply` — one edit.
* `replaceAll` — all edits at once.
* `Compatible` — two edits, the first before the second, that do not overlap.
* `moved` — where a position of the text goes when all edits are made at once.

## Main results

* `foldr_apply` — edits in order, done from the last one on.
* `replaceAll_eq`, `stops_before` — what a stable sort keeps.
* `emptyText_le_moved`, `moved_le_length` — a position goes to a position of the new text.
-/

namespace TextEdits

variable {α : Type*}

/-- The text to put in the place of the range from `start` to `stop`. -/
structure Edit (α : Type*) where
  start : ℕ
  stop : ℕ
  text : List α
  deriving DecidableEq, Repr

namespace Edit

def apply (e : Edit α) (t : List α) : List α := t.take e.start ++ (e.text ++ t.drop e.stop)

end Edit

/-! ## All edits at once -/

section Simultaneous

variable (es : List (Edit α))

/-- What the edits put at the position `p`. -/
def inserted (p : ℕ) : List α := (es.filter (·.start = p)).flatMap (·.text)

/-- Whether an edit takes the symbol at the position `p` away. -/
def covered (p : ℕ) : Bool := es.any fun e => e.start ≤ p ∧ p < e.stop

/-- The result for the text from the position `p` on. -/
def replaceFrom : ℕ → List α → List α
  | p, [] => inserted es p
  | p, c :: cs => inserted es p ++ ((if covered es p then [] else [c]) ++ replaceFrom (p + 1) cs)

/-- The text with all ranges replaced at once. -/
def replaceAll (t : List α) : List α := replaceFrom es 0 t

end Simultaneous

variable {es es' : List (Edit α)} {e : Edit α} {p : ℕ} {t : List α}

theorem inserted_append (p : ℕ) : inserted (es ++ es') p = inserted es p ++ inserted es' p := by
  simp [inserted]

theorem inserted_singleton (p : ℕ) : inserted [e] p = if e.start = p then e.text else [] := by
  by_cases h : e.start = p <;> simp [inserted, h]

theorem covered_append (p : ℕ) : covered (es ++ es') p = (covered es p || covered es' p) := by
  simp [covered]

theorem inserted_eq_nil (h : ∀ e ∈ es, e.start ≠ p) : inserted es p = [] := by
  rw [inserted, List.filter_eq_nil_iff.2 (by simpa using h), List.flatMap_nil]

theorem covered_eq_false (h : ∀ e ∈ es, e.stop ≤ p) : covered es p = false := by
  simp only [covered, List.any_eq_false, decide_eq_true_eq, not_and]
  exact fun e he _ => Nat.not_lt.2 (h e he)

theorem replaceFrom_congr (hins : ∀ p, inserted es p = inserted es' p)
    (hcov : ∀ p, covered es p = covered es' p) (p : ℕ) (t : List α) :
    replaceFrom es p t = replaceFrom es' p t := by
  induction t generalizing p with
  | nil => exact hins p
  | cons c cs ih => rw [replaceFrom, replaceFrom, hins, hcov, ih]

/-! ## Edits in order -/

/-- The edits are ranges of a text of `n` symbols. -/
def Inside (n : ℕ) (es : List (Edit α)) : Prop := ∀ e ∈ es, e.start ≤ e.stop ∧ e.stop ≤ n

/-- Behind all edits the text stays. -/
theorem replaceFrom_behind (hle : ∀ e ∈ es, e.start ≤ e.stop) (h : ∀ e ∈ es, e.stop ≤ p)
    (t : List α) : replaceFrom es p t = inserted es p ++ t := by
  induction t generalizing p with
  | nil => simp [replaceFrom]
  | cons c cs ih =>
    have hnil : inserted es (p + 1) = [] := inserted_eq_nil fun e he => by
      have := h e he
      have := hle e he
      omega
    rw [replaceFrom, covered_eq_false h, ih fun e he => Nat.le_succ_of_le (h e he), hnil]
    simp

/-- What the last edit covers is skipped. -/
theorem replaceFrom_covered (hle : ∀ e ∈ es, e.start ≤ e.stop) (h : ∀ x ∈ es, x.stop ≤ e.start)
    (hp : e.start < p) (t : List α) : replaceFrom (es ++ [e]) p t = t.drop (e.stop - p) := by
  have hnil {q : ℕ} (hq : e.start < q) : inserted (es ++ [e]) q = [] := by
    refine inserted_eq_nil fun x hx => ?_
    rcases List.mem_append.1 hx with hx | hx
    · have := h x hx
      have := hle x hx
      omega
    · obtain rfl := List.mem_singleton.1 hx
      omega
  induction t generalizing p with
  | nil => simp [replaceFrom, hnil hp]
  | cons c cs ih =>
    have hcov : covered (es ++ [e]) p = decide (p < e.stop) := by
      rw [covered_append, covered_eq_false fun x hx => Nat.le_trans (h x hx) (Nat.le_of_lt hp)]
      simp [covered, Nat.le_of_lt hp]
    rw [replaceFrom, hnil hp, hcov, ih (by omega)]
    by_cases hlt : p < e.stop
    · obtain ⟨k, hk⟩ : ∃ k, e.stop - p = k + 1 := ⟨e.stop - p - 1, by omega⟩
      have hk' : e.stop - (p + 1) = k := by omega
      simp [hlt, hk, hk']
    · have hk : e.stop - p = 0 := by omega
      have hk' : e.stop - (p + 1) = 0 := by omega
      simp [hlt, hk, hk']

/-- The last edit may be done first. -/
theorem replaceFrom_concat (hle : ∀ e ∈ es, e.start ≤ e.stop) (h : ∀ x ∈ es, x.stop ≤ e.start)
    (he : e.start ≤ e.stop) (hp : p ≤ e.start) (ht : e.stop ≤ p + t.length) :
    replaceFrom (es ++ [e]) p t =
      replaceFrom es p (t.take (e.start - p) ++ (e.text ++ t.drop (e.stop - p))) := by
  induction t generalizing p with
  | nil =>
    obtain rfl : p = e.start := by simp only [List.length_nil] at ht; omega
    rw [replaceFrom, inserted_append, inserted_singleton, if_pos rfl]
    simp [replaceFrom_behind hle h]
  | cons c cs ih =>
    rw [List.length_cons] at ht
    rcases Nat.lt_or_ge p e.start with hlt | hge
    · obtain ⟨i, hi⟩ : ∃ i, e.start - p = i + 1 := ⟨e.start - p - 1, by omega⟩
      obtain ⟨j, hj⟩ : ∃ j, e.stop - p = j + 1 := ⟨e.stop - p - 1, by omega⟩
      have hi' : e.start - (p + 1) = i := by omega
      have hj' : e.stop - (p + 1) = j := by omega
      have hcov : covered [e] p = false := by simp [covered]; omega
      rw [hi, hj, List.take_succ_cons, List.drop_succ_cons, List.cons_append, replaceFrom,
        replaceFrom, inserted_append, inserted_singleton, if_neg (by omega), covered_append, hcov,
        ih (by omega) (by omega), hi', hj']
      simp
    · obtain rfl : p = e.start := by omega
      rw [replaceFrom, replaceFrom_covered hle h (Nat.lt_succ_self _), inserted_append,
        inserted_singleton, if_pos rfl, covered_append, covered_eq_false h,
        replaceFrom_behind hle h]
      rcases Nat.lt_or_ge e.start e.stop with hlt | hge
      · obtain ⟨j, hj⟩ : ∃ j, e.stop - e.start = j + 1 := ⟨e.stop - e.start - 1, by omega⟩
        have hj' : e.stop - (e.start + 1) = j := by omega
        simp [covered, hlt, hj, hj']
      · have hj : e.stop - e.start = 0 := by omega
        have hj' : e.stop - (e.start + 1) = 0 := by omega
        simp [covered, Nat.not_lt.2 hge, hj, hj']

theorem Edit.length_apply (e : Edit α) {t : List α} (h : e.start ≤ t.length) :
    e.start ≤ (e.apply t).length := by
  simp only [Edit.apply, List.length_append, List.length_take_of_le h]
  omega

/-- Edits in order, done from the last one on, replace all ranges at once. -/
theorem foldr_apply (hin : Inside t.length es) (hord : es.Pairwise fun x y => x.stop ≤ y.start) :
    es.foldr Edit.apply t = replaceAll es t := by
  induction es using List.reverseRecOn generalizing t with
  | nil => simp [replaceAll, replaceFrom_behind, inserted]
  | append_singleton es e ih =>
    obtain ⟨hord, -, hlast⟩ := List.pairwise_append.1 hord
    have hlast : ∀ x ∈ es, x.stop ≤ e.start := fun x hx => hlast x hx e (by simp)
    obtain ⟨he, hstop⟩ := hin e (by simp)
    have hle : ∀ x ∈ es, x.start ≤ x.stop := fun x hx => (hin x (by simp [hx])).1
    have hin' : Inside (e.apply t).length es := fun x hx =>
      ⟨hle x hx, Nat.le_trans (hlast x hx) (e.length_apply (Nat.le_trans he hstop))⟩
    have hconcat := replaceFrom_concat (t := t) hle hlast he (Nat.zero_le _) (by simpa using hstop)
    rw [List.foldr_append, List.foldr_cons, List.foldr_nil, ih hin' hord, replaceAll, replaceAll,
      hconcat]
    rfl

/-- Edits leave the text in front of them alone. -/
theorem take_foldr_apply {n : ℕ} (h : ∀ e ∈ es, n ≤ e.start) (hn : n ≤ t.length) :
    (es.foldr Edit.apply t).take n = t.take n ∧ n ≤ (es.foldr Edit.apply t).length := by
  induction es with
  | nil => exact ⟨rfl, hn⟩
  | cons e es ih =>
    obtain ⟨htake, hlen⟩ := ih fun x hx => h x (by simp [hx])
    have he := h e (by simp)
    simp only [List.foldr_cons, Edit.apply, List.length_append, List.length_take]
    refine ⟨?_, by omega⟩
    rw [List.take_append_of_le_length (by simp; omega), List.take_take, Nat.min_eq_left he, htake]

/-- Edits between two positions leave the rest of the text alone. -/
theorem exists_foldr_apply {a b : ℕ} (hab : a ≤ b) (hb : b ≤ t.length)
    (hin : ∀ e ∈ es, a ≤ e.start ∧ e.start ≤ e.stop ∧ e.stop ≤ b)
    (hord : es.Pairwise fun x y => x.stop ≤ y.start) :
    ∃ mid, es.foldr Edit.apply t = t.take a ++ (mid ++ t.drop b) := by
  induction es using List.reverseRecOn generalizing t b with
  | nil =>
    refine ⟨(t.take b).drop a, ?_⟩
    have hsplit : t.drop a = (t.take b).drop a ++ t.drop b := by
      conv_lhs => rw [← List.take_append_drop b t]
      rw [List.drop_append_of_le_length (by rw [List.length_take]; omega)]
    rw [← hsplit, List.take_append_drop, List.foldr_nil]
  | append_singleton es e ih =>
    obtain ⟨hord, -, hlast⟩ := List.pairwise_append.1 hord
    obtain ⟨ha, he, hstop⟩ := hin e (by simp)
    have hlen : e.start ≤ (e.apply t).length := e.length_apply (by omega)
    obtain ⟨mid, hmid⟩ := ih (t := e.apply t) ha hlen
      (fun x hx => ⟨(hin x (by simp [hx])).1, (hin x (by simp [hx])).2.1, hlast x hx e (by simp)⟩) hord
    have htake : (t.take e.start).length = e.start := List.length_take_of_le (by omega)
    have hfront : (e.apply t).take a = t.take a := by
      rw [Edit.apply, List.take_append_of_le_length (by omega), List.take_take, Nat.min_eq_left ha]
    have hback : (e.apply t).drop e.start = e.text ++ t.drop e.stop := List.drop_left' htake
    have hsplit : t.drop e.stop = (t.take b).drop e.stop ++ t.drop b := by
      conv_lhs => rw [← List.take_append_drop b t]
      rw [List.drop_append_of_le_length (by rw [List.length_take]; omega)]
    refine ⟨mid ++ (e.text ++ (t.take b).drop e.stop), ?_⟩
    rw [List.foldr_append, List.foldr_cons, List.foldr_nil, hmid, hfront, hback, hsplit]
    simp

/-! ## Sorting -/

/-- A stable sort keeps the order of what it takes as equal. -/
theorem filter_mergeSort {β : Type*} {le : β → β → Bool} (l : List β) {q : β → Bool}
    (htrans : ∀ a b c, le a b → le b c → le a c) (htotal : ∀ a b, le a b || le b a)
    (hq : ∀ a ∈ l, ∀ b ∈ l, q a → q b → le a b) : (l.mergeSort le).filter q = l.filter q := by
  have hsub : (l.filter q).Sublist (l.mergeSort le) := by
    refine List.sublist_mergeSort htrans htotal ?_ List.filter_sublist
    exact List.pairwise_of_forall_mem_list fun a ha b hb =>
      hq a (List.mem_filter.1 ha).1 b (List.mem_filter.1 hb).1 (List.mem_filter.1 ha).2
        (List.mem_filter.1 hb).2
  have hfilter := hsub.filter q
  rw [List.filter_filter, funext fun a => Bool.and_self (q a)] at hfilter
  have hlen : (l.filter q).length = ((l.mergeSort le).filter q).length :=
    ((List.mergeSort_perm l le).filter q).length_eq.symm
  exact (hfilter.eq_of_length hlen).symm

/-- Two edits of which the first is before the second in a list and which do not overlap: the first
one ends before the second one, and may be an insertion where the second one starts; or the second
one ends before it, and starts somewhere else. -/
def Compatible (x y : Edit α) : Prop :=
  x.stop ≤ y.start ∨ (y.start < x.start ∧ y.stop ≤ x.start)

instance (x y : Edit α) : Decidable (Compatible x y) :=
  inferInstanceAs (Decidable (_ ∨ _))

/-- What the edits come to depends on the order of those only that start at one position. -/
theorem replaceAll_eq (h : ∀ p, es.filter (·.start = p) = es'.filter (·.start = p)) (t : List α) :
    replaceAll es t = replaceAll es' t := by
  have hmem (e : Edit α) : e ∈ es ↔ e ∈ es' := by
    have := congrArg (e ∈ ·) (h e.start)
    simpa using this
  refine replaceFrom_congr (fun p => by rw [inserted, inserted, h]) (fun p => ?_) 0 t
  rw [Bool.eq_iff_iff, covered, covered, List.any_eq_true, List.any_eq_true]
  simp [hmem]

/-- Sorted with a stable sort, edits that do not overlap end before the next one starts. -/
theorem stops_before (hle : ∀ e ∈ es, e.start ≤ e.stop) (hcomp : es.Pairwise Compatible)
    (hsort : es'.Pairwise fun x y => x.start ≤ y.start)
    (h : ∀ p, es'.filter (·.start = p) = es.filter (·.start = p)) :
    es'.Pairwise fun x y => x.stop ≤ y.start := by
  have hmem {x : Edit α} (hx : x ∈ es') : x ∈ es := by
    have hx : x ∈ es'.filter (·.start = x.start) := by simp [hx]
    rw [h] at hx
    exact (List.mem_filter.1 hx).1
  have hless : ∀ x ∈ es', ∀ y ∈ es', x.start < y.start → x.stop ≤ y.start := by
    intro x hx y hy hlt
    have hne : x ≠ y := by
      rintro rfl
      omega
    have hsymm : Std.Symm fun x y : Edit α => Compatible x y ∨ Compatible y x :=
      ⟨fun _ _ => Or.symm⟩
    have hall : es.Pairwise fun x y => Compatible x y ∨ Compatible y x := hcomp.imp Or.inl
    have hpair := hall.forall (hmem hx) (hmem hy) hne
    have hy := hle y (hmem hy)
    simp only [Compatible] at hpair
    omega
  have hsame (p : ℕ) : (es'.filter (·.start = p)).Pairwise fun x y => x.stop ≤ y.start := by
    rw [h]
    refine (hcomp.filter _).imp_of_mem fun hx hy hxy => ?_
    have hx := (List.mem_filter.1 hx).2
    have hy := (List.mem_filter.1 hy).2
    simp only [Compatible, decide_eq_true_eq] at hx hy hxy
    omega
  clear h hmem
  induction es' with
  | nil => exact List.Pairwise.nil
  | cons x es' ih =>
    obtain ⟨hx, hsort⟩ := List.pairwise_cons.1 hsort
    refine List.pairwise_cons.2 ⟨fun y hy => ?_, ih hsort
      (fun x hx y hy => hless x (by simp [hx]) y (by simp [hy]))
      fun p => (hsame p).sublist ((List.sublist_cons_self x es').filter _)⟩
    rcases Nat.lt_or_eq_of_le (hx y hy) with hlt | heq
    · exact hless x (by simp) y (by simp [hy]) hlt
    · have hcons := hsame x.start
      rw [List.filter_cons_of_pos (by simp)] at hcons
      exact (List.pairwise_cons.1 hcons).1 y (by simp [hy, heq])

/-! ## Lengths and positions -/

/-- How much longer an edit makes a text. -/
def Edit.growth (e : Edit α) : ℤ := e.text.length - ((e.stop : ℤ) - e.start)

/-- How much longer the edits make the text in front of a position. -/
def shift (es : List (Edit α)) (p : ℕ) : ℤ := ((es.filter (·.stop ≤ p)).map Edit.growth).sum

/-- The start of the range that a position is inside of, else the position itself. -/
def anchor (es : List (Edit α)) (p : ℕ) : ℕ :=
  ((es.find? fun e => e.start < p ∧ p < e.stop).map (·.start)).getD p

/-- Where a position goes: one that is inside a range to the start of what replaces it, any other one
stays with the text around it, behind what is inserted there. -/
def moved (es : List (Edit α)) (p : ℕ) : ℤ := anchor es p + shift es p

/-- How much is inserted right at a position. -/
def emptyText (es : List (Edit α)) (p : ℕ) : ℕ :=
  ((es.filter fun e => e.start = p ∧ e.stop = p).map (·.text.length)).sum

theorem shift_append (p : ℕ) : shift (es ++ es') p = shift es p + shift es' p := by
  simp [shift]

theorem emptyText_append (p : ℕ) : emptyText (es ++ es') p = emptyText es p + emptyText es' p := by
  simp [emptyText]

theorem shift_eq_zero (h : ∀ e ∈ es, p < e.stop) : shift es p = 0 := by
  have hnil : es.filter (·.stop ≤ p) = [] := by simpa using h
  rw [shift, hnil]
  rfl

theorem emptyText_eq_zero (h : ∀ e ∈ es, e.start ≠ p ∨ e.stop ≠ p) : emptyText es p = 0 := by
  have hnil : (es.filter fun e => e.start = p ∧ e.stop = p) = [] := by
    simp only [List.filter_eq_nil_iff, decide_eq_true_eq, not_and]
    exact fun e he => (h e he).neg_resolve_left
  rw [emptyText, hnil]
  rfl

theorem emptyText_eq_zero_iff :
    emptyText es p = 0 ↔ ∀ e ∈ es, e.start = p → e.stop = p → e.text = [] := by
  simp only [emptyText, List.sum_eq_zero_iff, List.forall_mem_map, List.mem_filter,
    decide_eq_true_eq, and_imp, List.length_eq_zero_iff]

/-- In front of the edits that start at a position or behind it only what is inserted there counts. -/
theorem shift_eq_emptyText (hle : ∀ e ∈ es, e.start ≤ e.stop) (h : ∀ e ∈ es, p ≤ e.start) :
    shift es p = emptyText es p := by
  induction es with
  | nil => rfl
  | cons e es ih =>
    have ih := ih (fun x hx => hle x (by simp [hx])) fun x hx => h x (by simp [hx])
    have hp := h e (by simp)
    have hstop := hle e (by simp)
    simp only [shift, emptyText] at ih ⊢
    by_cases he : e.stop ≤ p
    · have hstart : e.start = p := by omega
      have hstop : e.stop = p := by omega
      simp [hstart, hstop, ih, Edit.growth]
    · have hne : e.stop ≠ p := by omega
      simp [he, hne, ih]

theorem anchor_eq (es : List (Edit α)) (p : ℕ) :
    anchor es p = p ∨ ∃ e ∈ es, anchor es p = e.start := by
  unfold anchor
  cases hfind : es.find? fun e => e.start < p ∧ p < e.stop with
  | none => exact .inl rfl
  | some e => exact .inr ⟨e, List.mem_of_find?_eq_some hfind, rfl⟩

theorem anchor_eq_self (h : ∀ e ∈ es, p ≤ e.start ∨ e.stop ≤ p) : anchor es p = p := by
  have hnone : (es.find? fun e => e.start < p ∧ p < e.stop) = none := by
    simp only [List.find?_eq_none, decide_eq_true_eq, not_and]
    intro e he hlt
    have := h e he
    omega
  rw [anchor, hnone]
  rfl

theorem anchor_append (h : ∀ e ∈ es, p ≤ e.start ∨ e.stop ≤ p) :
    anchor (es ++ es') p = anchor es' p := by
  have hnone : (es.find? fun e => e.start < p ∧ p < e.stop) = none := by
    simp only [List.find?_eq_none, decide_eq_true_eq, not_and]
    intro e he hlt
    have := h e he
    omega
  rw [anchor, List.find?_append, hnone]
  rfl

theorem anchor_of_inside (h : e.start < p) (h' : p < e.stop) : anchor (e :: es) p = e.start := by
  simp [anchor, h, h']

theorem Edit.length_apply_eq (e : Edit α) {t : List α} (h : e.start ≤ e.stop)
    (h' : e.stop ≤ t.length) : ((e.apply t).length : ℤ) = t.length + e.growth := by
  simp only [Edit.apply, Edit.growth, List.length_append, List.length_take, List.length_drop]
  omega

theorem length_foldr_apply (hin : Inside t.length es)
    (hord : es.Pairwise fun x y => x.stop ≤ y.start) :
    ((es.foldr Edit.apply t).length : ℤ) = t.length + (es.map Edit.growth).sum := by
  induction es using List.reverseRecOn generalizing t with
  | nil => simp
  | append_singleton es e ih =>
    obtain ⟨hord, -, hlast⟩ := List.pairwise_append.1 hord
    obtain ⟨he, hstop⟩ := hin e (by simp)
    have hin' : Inside (e.apply t).length es := fun x hx =>
      ⟨(hin x (by simp [hx])).1, Nat.le_trans (hlast x hx e (by simp))
        (e.length_apply (Nat.le_trans he hstop))⟩
    rw [List.foldr_append, List.foldr_cons, List.foldr_nil, ih hin' hord,
      e.length_apply_eq he hstop]
    simp
    omega

/-- The ranges of edits in order, between `a` and `b`. -/
theorem sum_width_le {a b : ℕ} (hin : ∀ e ∈ es, a ≤ e.start ∧ e.start ≤ e.stop ∧ e.stop ≤ b)
    (hab : a ≤ b) (hord : es.Pairwise fun x y => x.stop ≤ y.start) :
    (es.map fun e => ((e.stop : ℤ) - e.start)).sum ≤ b - a := by
  induction es generalizing a with
  | nil => simp [hab]
  | cons e es ih =>
    obtain ⟨hhead, hord⟩ := List.pairwise_cons.1 hord
    obtain ⟨ha, he, hb⟩ := hin e (by simp)
    have := ih (a := e.stop) (fun x hx => ⟨hhead x hx, (hin x (by simp [hx])).2⟩) hb hord
    simp only [List.map_cons, List.sum_cons]
    omega

theorem sum_growth (es : List (Edit α)) :
    (es.map Edit.growth).sum = (es.map fun e => (e.text.length : ℤ)).sum -
      (es.map fun e => ((e.stop : ℤ) - e.start)).sum := by
  induction es with
  | nil => rfl
  | cons e es ih =>
    simp only [List.map_cons, List.sum_cons, ih, Edit.growth]
    omega

theorem emptyText_le_sum (p : ℕ) :
    (emptyText es p : ℤ) ≤ ((es.filter (·.stop ≤ p)).map fun e => (e.text.length : ℤ)).sum := by
  induction es with
  | nil => simp [emptyText]
  | cons e es ih =>
    simp only [emptyText] at ih ⊢
    by_cases he : e.start = p ∧ e.stop = p
    · simpa [he] using ih
    · by_cases hp : e.stop ≤ p
      · simp only [he, hp, decide_false, decide_true, Bool.false_eq_true, not_false_eq_true,
          List.filter_cons_of_neg, List.filter_cons_of_pos, List.map_cons, List.sum_cons]
        omega
      · simpa [he, hp] using ih

/-- What the position that another one goes with cuts the edits into. -/
theorem anchor_spec (hin : Inside t.length es) (hord : es.Pairwise fun x y => x.stop ≤ y.start)
    (hp : p ≤ t.length) : anchor es p ≤ t.length ∧
      ∀ e ∈ es, (e.stop ≤ p → e.stop ≤ anchor es p) ∧ (p < e.stop → anchor es p ≤ e.start) := by
  induction es with
  | nil => exact ⟨hp, by simp⟩
  | cons e es ih =>
    obtain ⟨hhead, hord⟩ := List.pairwise_cons.1 hord
    obtain ⟨he, hstop⟩ := hin e (by simp)
    by_cases hinside : e.start < p ∧ p < e.stop
    · rw [anchor_of_inside hinside.1 hinside.2]
      refine ⟨by omega, fun x hx => ?_⟩
      rcases List.mem_cons.1 hx with rfl | hx
      · omega
      · have := hhead x hx
        have := hin x (by simp [hx])
        omega
    · have hcons : anchor (e :: es) p = anchor es p := by
        refine @anchor_append _ [e] _ _ ?_
        intro x hx
        obtain rfl := List.mem_singleton.1 hx
        omega
      obtain ⟨hlen, hall⟩ := ih (fun x hx => hin x (by simp [hx])) hord
      rw [hcons]
      refine ⟨hlen, fun x hx => ?_⟩
      rcases List.mem_cons.1 hx with rfl | hx
      · have hself (hbefore : p ≤ x.start) : anchor es p = p :=
          anchor_eq_self fun y hy => .inl (by have := hhead y hy; omega)
        refine ⟨fun hle => ?_, fun hlt => ?_⟩
        · obtain hanchor | ⟨y, hy, hanchor⟩ := anchor_eq es p
          · rwa [hanchor]
          · rw [hanchor]
            exact hhead y hy
        · rw [hself (by omega)]
          omega
      · exact hall x hx

/-- A position goes behind what is inserted right at it. -/
theorem emptyText_le_moved (hin : Inside t.length es)
    (hord : es.Pairwise fun x y => x.stop ≤ y.start) (hp : p ≤ t.length) :
    (emptyText es p : ℤ) ≤ moved es p := by
  obtain ⟨-, hanchor⟩ := anchor_spec hin hord hp
  have hwidth := @sum_width_le _ (es.filter (·.stop ≤ p)) 0 (anchor es p)
    (fun e he => by
      obtain ⟨he, hle⟩ := List.mem_filter.1 he
      exact ⟨Nat.zero_le _, (hin e he).1, (hanchor e he).1 (by simpa using hle)⟩)
    (Nat.zero_le _) (hord.filter _)
  have hempty := @emptyText_le_sum _ es p
  rw [moved, shift, sum_growth]
  push_cast at hwidth
  omega

theorem moved_le_length (hin : Inside t.length es)
    (hord : es.Pairwise fun x y => x.stop ≤ y.start) (hp : p ≤ t.length) :
    moved es p ≤ (es.foldr Edit.apply t).length := by
  obtain ⟨hlen, hanchor⟩ := anchor_spec hin hord hp
  have hwidth := @sum_width_le _ (es.filter fun e => ¬ e.stop ≤ p) (anchor es p) t.length
    (fun e he => by
      obtain ⟨he, hlt⟩ := List.mem_filter.1 he
      exact ⟨(hanchor e he).2 (by simpa using hlt), hin e he⟩)
    hlen (hord.filter _)
  have hsplit := sum_growth (es.filter fun e => ¬ e.stop ≤ p)
  have hpos : 0 ≤ ((es.filter fun e => ¬ e.stop ≤ p).map fun e => (e.text.length : ℤ)).sum :=
    List.sum_nonneg fun n hn => by
      obtain ⟨e, -, rfl⟩ := List.mem_map.1 hn
      omega
  have hsum : (es.map Edit.growth).sum = shift es p +
      ((es.filter fun e => ¬ e.stop ≤ p).map Edit.growth).sum := by
    rw [shift]
    exact (List.sum_map_filter_add_sum_map_filter_not ..).symm
  rw [length_foldr_apply hin hord, moved, hsum]
  omega

end TextEdits
