import Mathlib.Data.List.Basic

/-!
# Logs

What has happened, the latest in the end, and in which order.

## Main definitions

* `Log.After` — one thing has happened after another one.
* `Log.Since` — something has happened, and something else not since then.
* `Log.Whenever` — what held before each thing that has happened.

## Main results

* `Log.After.snoc`, `Log.Since.snoc`, `Log.Whenever.snoc` — one more thing happens.
-/

namespace Log

variable {α : Type*} {a b x : α} {log more : List α} {P : List α → α → Prop}

/-- After `a` there is `b`. -/
def After (a b : α) (log : List α) : Prop := ∃ pre mid, log = pre ++ a :: mid ∧ b ∈ mid

/-- There is `a`, and no `b` after it. -/
def Since (a b : α) (log : List α) : Prop := ∃ pre mid, log = pre ++ a :: mid ∧ b ∉ mid

/-- Everything that has happened was right after what was before it. -/
def Whenever (P : List α → α → Prop) (log : List α) : Prop :=
  ∀ pre x post, log = pre ++ x :: post → P pre x

theorem After.append (h : After a b log) (more : List α) : After a b (log ++ more) := by
  obtain ⟨pre, mid, rfl, hmem⟩ := h
  exact ⟨pre, mid ++ more, by simp, List.mem_append_left _ hmem⟩

/-- What has happened is followed by what happens now. -/
theorem After.snoc (h : a ∈ log) : After a b (log ++ [b]) := by
  obtain ⟨pre, mid, rfl⟩ := List.append_of_mem h
  exact ⟨pre, mid ++ [b], by simp, by simp⟩

theorem Since.append (h : Since a b log) (hmore : b ∉ more) : Since a b (log ++ more) := by
  obtain ⟨pre, mid, rfl, hnot⟩ := h
  exact ⟨pre, mid ++ more, by simp, by simp [hnot, hmore]⟩

theorem Since.snoc : Since a b (log ++ [a]) := ⟨log, [], rfl, by simp⟩

theorem Whenever.nil : Whenever P [] := fun pre x post h => by simp at h

theorem Whenever.snoc (h : Whenever P log) (hx : P log x) : Whenever P (log ++ [x]) := by
  intro pre y post heq
  rcases List.eq_nil_or_concat post with rfl | ⟨post, z, rfl⟩
  · obtain ⟨rfl, hy⟩ := List.append_inj' heq rfl
    cases hy
    exact hx
  · have heq' : log ++ [x] = (pre ++ y :: post) ++ [z] := by simpa using heq
    obtain ⟨rfl, -⟩ := List.append_inj' heq' rfl
    exact h pre y post rfl

end Log
