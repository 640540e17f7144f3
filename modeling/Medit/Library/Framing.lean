import Mathlib.Algebra.BigOperators.Group.List.Basic
import Mathlib.Algebra.Group.Nat.Defs
import Mathlib.Algebra.GroupWithZero.Nat
import Mathlib.Algebra.Ring.Int.Defs
import Mathlib.Data.List.Basic

/-!
# Framed streams

A stream of frames one after another, of which a reader has taken some number of symbols: how many
frames have come in whole, and what is left of the one after them.

## Main definitions

* `Framing.leftover` — how many symbols of a frame that has not come in whole are there.
* `Framing.Partial` — what a reader holds is a part of the first frame that is still to come.

## Main results

* `Framing.exists_split` — what has been read is some whole frames and a part of the next.
* `Framing.append_cons_inj` — the first separator ends the first frame.
-/

namespace Framing

variable {α : Type*}

/-- The symbols left over, of `n` read, after the whole frames of the lengths `sizes`. -/
def leftover : List ℕ → ℕ → ℕ
  | [], n => n
  | size :: sizes, n => if size ≤ n then leftover sizes (n - size) else n

/-- The symbols `part` are the start of the frames, and do not hold the first one of them. -/
structure Partial (frames : List (List α)) (part : List α) : Prop where
  isPrefix : part <+: frames.flatten
  short : ∀ f ∈ frames.head?, part.length < f.length

theorem leftover_append (done rest : List ℕ) (n : ℕ) :
    leftover (done ++ rest) (done.sum + n) = leftover rest n := by
  induction done with
  | nil => simp
  | cons size done ih =>
    have hle : size ≤ size + (done.sum + n) := by omega
    rw [List.cons_append, List.sum_cons, Nat.add_assoc, leftover, if_pos hle,
      Nat.add_sub_cancel_left, ih]

theorem leftover_eq {frames : List (List α)} {part : List α} (h : Partial frames part) :
    leftover (frames.map List.length) part.length = part.length := by
  cases frames with
  | nil => rfl
  | cons f frames =>
    have hlt := h.short f (by simp)
    rw [List.map_cons, leftover, if_neg (by omega)]

theorem Partial.nil {frames : List (List α)} (h : ∀ f ∈ frames, f ≠ []) : Partial frames [] where
  isPrefix := List.nil_prefix
  short f hf := List.length_pos_iff.2 (h f (List.mem_of_mem_head? hf))

/-- All frames have come in when nothing is left over of the whole stream. -/
theorem Partial.eq_nil {frames : List (List α)} (h : Partial frames frames.flatten) :
    frames = [] := by
  cases frames with
  | nil => rfl
  | cons f frames =>
    have hlt := h.short f (by simp)
    rw [List.flatten_cons, List.length_append] at hlt
    omega

/-- What has been read of a stream is some whole frames and a part of the next. -/
theorem exists_split {frames : List (List α)} {read : List α} (h : read <+: frames.flatten) :
    ∃ done rest part, frames = done ++ rest ∧ read = done.flatten ++ part ∧ Partial rest part := by
  induction frames generalizing read with
  | nil => exact ⟨[], [], read, rfl, by simp, h, by simp⟩
  | cons f frames ih =>
    rcases Nat.lt_or_ge read.length f.length with hlt | hge
    · exact ⟨[], f :: frames, read, rfl, by simp, h, by simpa using hlt⟩
    · rw [List.flatten_cons] at h
      obtain ⟨more, rfl⟩ := (List.prefix_of_prefix_length_le (List.prefix_append f _) h hge)
      obtain ⟨done, rest, part, rfl, rfl, hpart⟩ := ih ((List.prefix_append_right_inj f).1 h)
      exact ⟨f :: done, rest, part, rfl, by simp, hpart⟩

/-- Where the first of two separators is. -/
theorem append_cons_inj {s t u v : List α} {sep : α} (hs : sep ∉ s) (ht : sep ∉ t)
    (h : s ++ sep :: u = t ++ sep :: v) : s = t ∧ u = v := by
  induction s generalizing t with
  | nil => cases t <;> grind
  | cons a s ih =>
    cases t with
    | nil => grind
    | cons b t =>
      obtain ⟨rfl, hst⟩ := List.cons.inj h
      obtain ⟨rfl, rfl⟩ := ih (by grind) (by grind) hst
      exact ⟨rfl, rfl⟩

end Framing
