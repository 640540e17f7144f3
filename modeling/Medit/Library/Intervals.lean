import Mathlib.Data.Set.Insert
import Mathlib.Order.MinMax
import Mathlib.Tactic.Tauto

/-!
# Sorted lists of intervals

Intervals with the start and without the stop, one after another, each stopping at the start of
the next one at the latest. They stand for the set of all their points.

## Main definitions

* `Intervals.points` — the points of some intervals.
* `Intervals.Sorted` — they come one after another.

## Main results

* `Intervals.Sorted.cut` — what is before, near and after two points.
* `Intervals.points_hull` — the points of near intervals and of one that bridges their gaps.
* `Intervals.Sorted.mem_points_lt`, `Intervals.Sorted.mem_points_ge`, `Intervals.mem_points_clip` —
  the points of near intervals before, after and between two points.
* `Intervals.Sorted.append_iff` — putting lists together.
-/

namespace Intervals

/-- The points from `start` up to `stop`, without it. -/
structure Stretch (α : Type*) where
  start : α
  stop : α
deriving DecidableEq

variable {α : Type*} [LinearOrder α] {s t : Stretch α} {l m r : List (Stretch α)} {a b x : α}

instance : Membership α (Stretch α) := ⟨fun s x => s.start ≤ x ∧ x < s.stop⟩

theorem mem_def : x ∈ s ↔ s.start ≤ x ∧ x < s.stop := Iff.rfl

instance : Decidable (x ∈ s) := inferInstanceAs (Decidable (_ ∧ _))

/-- The points of some intervals. -/
def points (l : List (Stretch α)) : Set α := {x | ∃ s ∈ l, x ∈ s}

theorem mem_points : x ∈ points l ↔ ∃ s ∈ l, x ∈ s := Iff.rfl

@[simp] theorem mem_points_nil : x ∈ points ([] : List (Stretch α)) ↔ False := by
  simp [mem_points]

@[simp] theorem mem_points_cons : x ∈ points (s :: l) ↔ x ∈ s ∨ x ∈ points l := by
  simp [mem_points]

@[simp] theorem mem_points_append : x ∈ points (l ++ m) ↔ x ∈ points l ∨ x ∈ points m := by
  simp [mem_points, or_and_right, exists_or]

/-- Intervals that come one after another. -/
def Sorted (l : List (Stretch α)) : Prop :=
  (∀ s ∈ l, s.start ≤ s.stop) ∧ l.Pairwise fun s t => s.stop ≤ t.start

theorem Sorted.nil : Sorted ([] : List (Stretch α)) := ⟨by simp, .nil⟩

theorem Sorted.singleton (h : s.start ≤ s.stop) : Sorted [s] := ⟨by simpa using h, by simp⟩

theorem Sorted.cons_iff :
    Sorted (s :: l) ↔ s.start ≤ s.stop ∧ (∀ t ∈ l, s.stop ≤ t.start) ∧ Sorted l := by
  simp only [Sorted, List.forall_mem_cons, List.pairwise_cons]
  tauto

theorem Sorted.append_iff :
    Sorted (l ++ m) ↔ Sorted l ∧ Sorted m ∧ ∀ s ∈ l, ∀ t ∈ m, s.stop ≤ t.start := by
  simp only [Sorted, List.forall_mem_append, List.pairwise_append]
  tauto

theorem Sorted.sublist (h : Sorted l) (hsub : m.Sublist l) : Sorted m :=
  ⟨fun s hs => h.1 s (hsub.subset hs), h.2.sublist hsub⟩

/-- What is before a point stops before it, and what is after a point starts after it. -/
theorem Sorted.cut (h : Sorted (l ++ m ++ r)) (hm : m ≠ []) :
    ∃ first last, m.head? = some first ∧ m.getLast? = some last ∧
      (∀ s ∈ l, s.stop ≤ first.start) ∧ (∀ s ∈ r, last.stop ≤ s.start) ∧
      first.start ≤ last.stop ∧ ∀ s ∈ m, first.start ≤ s.start ∧ s.stop ≤ last.stop := by
  rw [append_iff, append_iff] at h
  obtain ⟨⟨-, hm', hlm⟩, -, hr⟩ := h
  obtain ⟨first, rest, rfl⟩ := List.exists_cons_of_ne_nil hm
  have hlast := List.getLast?_eq_some_getLast hm
  have hmem := List.getLast_mem hm
  refine ⟨first, _, rfl, hlast, fun s hs => hlm s hs first List.mem_cons_self,
    fun s hs => hr _ (List.mem_append_right _ hmem) s hs, ?_, fun s hs => ⟨?_, ?_⟩⟩
  · obtain ⟨hfirst, hrest, -⟩ := cons_iff.1 hm'
    rcases List.mem_cons.1 hmem with heq | hmem
    · rw [heq]
      exact hfirst
    · exact hfirst.trans ((hrest _ hmem).trans (hm'.1 _ (List.mem_cons_of_mem _ hmem)))
  · obtain ⟨hfirst, hrest, -⟩ := cons_iff.1 hm'
    rcases List.mem_cons.1 hs with rfl | hs
    · exact le_refl _
    · exact hfirst.trans (hrest s hs)
  · obtain ⟨front, hfront⟩ : ∃ front, first :: rest = front ++ [(first :: rest).getLast hm] :=
      ⟨_, (List.dropLast_concat_getLast hm).symm⟩
    rw [hfront] at hs hm'
    obtain ⟨-, -, hbefore⟩ := append_iff.1 hm'
    rcases List.mem_append.1 hs with hs | hs
    · exact (hbefore s hs _ (List.mem_singleton_self _)).trans
        (hm'.1 _ (List.mem_append_right _ (List.mem_singleton_self _)))
    · rw [List.mem_singleton.1 hs]

/-- An interval that reaches from one of the others to the last of them. -/
theorem points_hull (h : ∀ s ∈ m, a ≤ s.stop ∧ s.start ≤ b) (lo hi : α)
    (hlo : lo = a ∨ ∃ s ∈ m, s.start = lo) (hloa : lo ≤ a) (hhi : hi = b ∨ ∃ s ∈ m, s.stop = hi)
    (hhib : b ≤ hi) (hall : ∀ s ∈ m, lo ≤ s.start ∧ s.stop ≤ hi) :
    x ∈ (⟨lo, hi⟩ : Stretch α) ↔ x ∈ points m ∨ x ∈ (⟨a, b⟩ : Stretch α) := by
  simp only [mem_def, mem_points]
  constructor
  · rintro ⟨hx, hx'⟩
    rcases lt_or_ge x a with hxa | hxa
    · obtain ⟨s, hs, rfl⟩ := hlo.resolve_left fun heq => (heq ▸ hx).not_gt hxa
      exact .inl ⟨s, hs, hx, hxa.trans_le (h s hs).1⟩
    · rcases lt_or_ge x b with hxb | hxb
      · exact .inr ⟨hxa, hxb⟩
      · obtain ⟨s, hs, rfl⟩ := hhi.resolve_left fun heq => (heq ▸ hx').not_ge hxb
        exact .inl ⟨s, hs, (h s hs).2.trans hxb, hx'⟩
  · rintro (⟨s, hs, hx, hx'⟩ | ⟨hx, hx'⟩)
    · exact ⟨(hall s hs).1.trans hx, hx'.trans_le (hall s hs).2⟩
    · exact ⟨hloa.trans hx, hx'.trans_le hhib⟩

/-- The points of near intervals before a point are those of the first one. -/
theorem Sorted.mem_points_lt (h : Sorted m) (hm : ∀ s ∈ m, a < s.stop) (hs : m.head? = some s) :
    x ∈ points m ∧ x < a ↔ s.start ≤ x ∧ x < a := by
  obtain ⟨rest, rfl⟩ : ∃ rest, m = s :: rest := by
    cases m with
    | nil => simp at hs
    | cons t rest => exact ⟨rest, by simpa using hs⟩
  obtain ⟨-, hrest, -⟩ := cons_iff.1 h
  have hstop := hm s List.mem_cons_self
  refine and_congr_left fun hx => ⟨?_, fun hsx => ⟨s, List.mem_cons_self, hsx, hx.trans hstop⟩⟩
  rintro ⟨t, ht, htx, -⟩
  rcases List.mem_cons.1 ht with rfl | ht
  · exact htx
  · exact absurd ((hrest t ht).trans htx) (hx.trans hstop).not_ge

/-- The points of near intervals from a point on are those of the last one. -/
theorem Sorted.mem_points_ge (h : Sorted m) (hm : ∀ s ∈ m, s.start < b) (hs : m.getLast? = some s) :
    x ∈ points m ∧ b ≤ x ↔ b ≤ x ∧ x < s.stop := by
  obtain ⟨front, rfl⟩ := List.getLast?_eq_some_iff.1 hs
  obtain ⟨-, -, hfront⟩ := append_iff.1 h
  have hmem : s ∈ front ++ [s] := by simp
  have hstart := hm s hmem
  constructor
  · rintro ⟨⟨t, ht, -, hxt⟩, hx⟩
    rcases List.mem_append.1 ht with ht | ht
    · exact absurd ((hxt.trans_le (hfront t ht s (by simp))).trans hstart) hx.not_gt
    · rw [List.mem_singleton.1 ht] at hxt
      exact ⟨hx, hxt⟩
  · rintro ⟨hx, hxs⟩
    exact ⟨⟨s, hmem, hstart.le.trans hx, hxs⟩, hx⟩

/-- The part of an interval from `a` to `b`. -/
def clip (a b : α) (s : Stretch α) : Stretch α := ⟨max s.start a, min s.stop b⟩

theorem mem_clip : x ∈ clip a b s ↔ x ∈ s ∧ a ≤ x ∧ x < b := by
  simp only [clip, mem_def, max_le_iff, lt_min_iff]
  tauto

theorem mem_points_clip : x ∈ points (m.map (clip a b)) ↔ x ∈ points m ∧ a ≤ x ∧ x < b := by
  simp only [mem_points, List.mem_map, exists_exists_and_eq_and, mem_clip]
  tauto

end Intervals
