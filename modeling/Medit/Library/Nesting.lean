import Mathlib.Algebra.Order.Group.Int
import Mathlib.Data.List.Count
import Mathlib.Data.List.TakeDrop

/-!
# Nesting depth

The depth of brackets along a text, from a bracket that has been opened before it.

## Main definitions

* `level` — the brackets opened in a text less the ones closed in it.
* `FirstZero` — the number of characters after which the depth is zero for the first time.

## Main results

* `FirstZero.mirror` — going back from the bracket that closes leads to the one that opens.
-/

namespace Nesting

variable {α : Type*} (opens closes : α → Bool)

/-- The brackets opened in a text less the ones closed in it. -/
def level (l : List α) : ℤ := l.countP opens - l.countP closes

/-- Behind an open bracket, the depth is zero after `n` characters for the first time. -/
def FirstZero (ahead : List α) (n : ℕ) : Prop :=
  1 + level opens closes (ahead.take n) = 0 ∧
    ∀ m < n, 0 < 1 + level opens closes (ahead.take m)

variable {opens closes}

@[simp] theorem level_nil : level opens closes [] = 0 := rfl

theorem level_append (l l' : List α) :
    level opens closes (l ++ l') = level opens closes l + level opens closes l' := by
  simp only [level, List.countP_append]
  omega

theorem level_cons (a : α) (l : List α) :
    level opens closes (a :: l) = level opens closes [a] + level opens closes l :=
  level_append [a] l

@[simp] theorem level_reverse (l : List α) :
    level opens closes l.reverse = level opens closes l := by
  simp [level]

theorem level_swap (l : List α) : level closes opens l = -level opens closes l := by
  simp only [level]
  omega

theorem level_open {a : α} (hopens : opens a) (hcloses : closes a = false) :
    level opens closes [a] = 1 := by
  simp [level, hopens, hcloses]

theorem level_close {a : α} (hopens : opens a = false) (hcloses : closes a) :
    level opens closes [a] = -1 := by
  simp [level, hopens, hcloses]

theorem level_other {a : α} (hopens : opens a = false) (hcloses : closes a = false) :
    level opens closes [a] = 0 := by
  simp [level, hopens, hcloses]

theorem FirstZero.pos {ahead : List α} {n : ℕ} (h : FirstZero opens closes ahead n) : 0 < n := by
  refine Nat.pos_of_ne_zero ?_
  rintro rfl
  simpa using h.1

/-- Going back from the bracket that closes leads to the one that opens. -/
theorem FirstZero.mirror {text : List α} {i n : ℕ} {a b : α}
    (h : FirstZero opens closes (text.drop (i + 1)) n) (ha : text[i]? = some a)
    (hb : text[i + n]? = some b) (hopen : level opens closes [a] = 1)
    (hclose : level opens closes [b] = -1) :
    FirstZero closes opens (text.take (i + n)).reverse n := by
  have hpos := h.pos
  have hlen : i + n < text.length := (List.getElem?_eq_some_iff.1 hb).1
  have hbetween (m : ℕ) : (text.drop (i + 1)).take m = (text.take (i + 1 + m)).drop (i + 1) := by
    rw [List.drop_take]
    congr 1
    omega
  have hback (m : ℕ) : ((text.take (i + n)).reverse).take m =
      ((text.take (i + n)).drop (i + n - m)).reverse := by
    rw [List.take_reverse, List.length_take_of_le hlen.le]
  -- all that is between the two brackets is closed
  have hinner : level opens closes ((text.take (i + n)).drop (i + 1)) = 0 := by
    have hzero := h.1
    have htake : text.take (i + 1 + n) = text.take (i + n) ++ [b] := by
      rw [show i + 1 + n = i + n + 1 by omega, List.take_add_one, hb]
      rfl
    rw [hbetween, htake, List.drop_append_of_le_length (by
      rw [List.length_take_of_le hlen.le]
      omega), level_append, hclose] at hzero
    omega
  have hsplit (m : ℕ) (hm : m < n) : level opens closes ((text.take (i + n)).drop (i + n - m)) =
      -level opens closes ((text.drop (i + 1)).take (n - 1 - m)) := by
    have happend := List.take_append_drop (n - 1 - m) ((text.take (i + n)).drop (i + 1))
    have hfront : ((text.take (i + n)).drop (i + 1)).take (n - 1 - m) =
        (text.drop (i + 1)).take (n - 1 - m) := by
      rw [List.drop_take, List.take_take, min_eq_left (by omega)]
    rw [hfront, List.drop_drop, show i + 1 + (n - 1 - m) = i + n - m by omega] at happend
    rw [← happend, level_append] at hinner
    omega
  refine ⟨?_, fun m hm => ?_⟩
  · have hwhole : (text.take (i + n)).drop (i + n - n) =
        a :: (text.take (i + n)).drop (i + 1) := by
      have hi : i < (text.take (i + n)).length := by
        rw [List.length_take_of_le hlen.le]
        omega
      have hget : (text.take (i + n))[i] = a := by
        rw [List.getElem_take]
        exact (List.getElem?_eq_some_iff.1 ha).2
      rw [Nat.add_sub_cancel, List.drop_eq_getElem_cons hi, hget]
    rw [hback, level_reverse, hwhole, level_swap, level_cons, hopen, hinner]
    omega
  · have hfront := h.2 (n - 1 - m) (by omega)
    rw [hback, level_reverse, level_swap, hsplit m hm]
    omega

/-- Going on from the bracket that opens leads to the one that closes. -/
theorem FirstZero.mirror_back {text : List α} {i n : ℕ} {a b : α}
    (h : FirstZero opens closes (text.take (i + n)).reverse n) (ha : text[i]? = some a)
    (hb : text[i + n]? = some b) (hopen : level opens closes [b] = 1)
    (hclose : level opens closes [a] = -1) :
    FirstZero closes opens (text.drop (i + 1)) n := by
  have hlen : i + n < text.length := (List.getElem?_eq_some_iff.1 hb).1
  have hget (k : ℕ) (hk : k < text.length) : text.reverse[text.length - 1 - k]? = text[k]? := by
    rw [List.getElem?_reverse (by omega), show text.length - 1 - (text.length - 1 - k) = k by omega]
  have hsum : text.length - 1 - (i + n) + n = text.length - 1 - i := by omega
  have hdrop : text.reverse.drop (text.length - 1 - (i + n) + 1) = (text.take (i + n)).reverse := by
    rw [List.drop_reverse]
    congr 2
    omega
  have hmirror := FirstZero.mirror (hdrop ▸ h) ((hget _ hlen).trans hb)
    (by rw [hsum, hget i (by omega), ha]) hopen hclose
  rwa [hsum, List.take_reverse, List.reverse_reverse,
    show text.length - (text.length - 1 - i) = i + 1 by omega] at hmirror

end Nesting
