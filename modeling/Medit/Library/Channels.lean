import Mathlib.Data.List.TakeDrop
import Mathlib.Logic.Function.Basic

/-!
# One list on several channels

The same list comes on several channels, on each from the front. Who takes an item when it is heard
for the first time takes every item once, in order.

## Main definitions

* `Hearing` — how much has been heard on each channel and taken.
* `Hearing.hear` — the next item of a channel.

## Main results

* `Hearing.take_hear` — an item is taken when no other channel has been that far.
-/

namespace Channels

open Function

variable {ι α : Type*}

/-- How many items have been heard on each channel, and how many taken; none is taken unheard. -/
structure Hearing (ι : Type*) where
  heard : ι → ℕ
  taken : ℕ
  heard_le : ∀ i, heard i ≤ taken

namespace Hearing

def start : Hearing ι := ⟨fun _ => 0, 0, fun _ => Nat.le_refl 0⟩

/-- The next item of a channel is heard, and taken if it is the first one not taken. -/
def hear [DecidableEq ι] (h : Hearing ι) (i : ι) : Hearing ι where
  heard := update h.heard i (h.heard i + 1)
  taken := if h.heard i = h.taken then h.taken + 1 else h.taken
  heard_le j := by
    have hi := h.heard_le i
    have hj := h.heard_le j
    rw [update_apply]
    split_ifs <;> omega

variable [DecidableEq ι] (h : Hearing ι) (i : ι)

@[simp] theorem hear_heard_self : (h.hear i).heard i = h.heard i + 1 := update_self ..

@[simp] theorem hear_heard_ne {j : ι} (hj : j ≠ i) : (h.hear i).heard j = h.heard j :=
  update_of_ne hj ..

/-- What has been taken of a list after one more item. -/
theorem take_hear (xs : List α) : xs.take (h.hear i).taken =
    xs.take h.taken ++ if h.heard i = h.taken then xs[h.heard i]?.toList else [] := by
  unfold hear
  split_ifs with hi
  · rw [List.take_add_one, hi]
  · rw [List.append_nil]

end Hearing

end Channels
