import Mathlib.Algebra.Order.Ring.Int
import Mathlib.Order.Lattice

/-!
# Rectangles

Rectangles of points with whole coordinates. A rectangle without width or height has no points.

## Main definitions

* `Rect.Has` — the points of a rectangle.
* `Rect.inter`, `Rect.shift` — the common part of two rectangles, and a rectangle moved sideways.

## Main results

* `Rect.has_inter`, `Rect.has_shift` — the points of these rectangles.
-/

namespace Rectangles

/-- A rectangle, known by its left upper corner and its size. -/
structure Rect where
  x : ℤ
  y : ℤ
  width : ℤ
  height : ℤ
deriving DecidableEq

namespace Rect

variable {r s : Rect} {x y a b d : ℤ}

/-- The points of a rectangle. -/
def Has (r : Rect) (x y : ℤ) : Prop :=
  (r.x ≤ x ∧ x < r.x + r.width) ∧ r.y ≤ y ∧ y < r.y + r.height

instance : Decidable (r.Has x y) := inferInstanceAs (Decidable (_ ∧ _))

/-- The rectangle is not without width or height. -/
def Solid (r : Rect) : Prop := 0 < r.width ∧ 0 < r.height

instance : Decidable r.Solid := inferInstanceAs (Decidable (_ ∧ _))

theorem Has.solid (h : r.Has x y) : r.Solid := by
  obtain ⟨hx, hy⟩ := h
  exact ⟨by omega, by omega⟩

/-- What two rectangles have in common. -/
def inter (r s : Rect) : Rect where
  x := max r.x s.x
  y := max r.y s.y
  width := min (r.x + r.width) (s.x + s.width) - max r.x s.x
  height := min (r.y + r.height) (s.y + s.height) - max r.y s.y

theorem has_inter : (r.inter s).Has x y ↔ r.Has x y ∧ s.Has x y := by
  simp only [Has, inter]
  omega

/-- The rectangle moved to the right. -/
def shift (r : Rect) (d : ℤ) : Rect := { r with x := r.x + d }

theorem has_shift : (r.shift d).Has x y ↔ r.Has (x - d) y := by
  simp only [Has, shift]
  omega

end Rect

end Rectangles
