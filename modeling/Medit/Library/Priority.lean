import Mathlib.Data.List.Nodup
import Mathlib.Order.Defs.LinearOrder
import Mathlib.Order.Lattice

/-!
# Priorities

Several entries of a list compete, and the one of the lowest rank wins. Without entries it is a
default.

## Main definitions

* `Priority.IsBest` — what wins.
* `Priority.pick` — the better one of two.

## Main results

* `Priority.IsBest.unique` — with distinct ranks it does not depend on the order of the entries.
* `Priority.IsBest.pick`, `Priority.IsBest.keep_second` — one more entry.
* `Priority.IsBest.withdraw` — entries that have not won are taken back.
-/

namespace Priority

variable {α R : Type*} [LinearOrder R] {rank : α → R} {d x y e : α} {l l' more : List α}

/-- `x` wins among the entries, and is `d` when there are none. -/
def IsBest (rank : α → R) (d : α) (l : List α) (x : α) : Prop :=
  l = [] ∧ x = d ∨ x ∈ l ∧ ∀ e ∈ l, rank x ≤ rank e

/-- The better one of two; a new one wins over an old one of the same rank. -/
def pick (rank : α → R) (new old : α) : α := if rank new ≤ rank old then new else old

namespace IsBest

theorem nil : IsBest rank d [] d := .inl ⟨rfl, rfl⟩

theorem le (h : IsBest rank d l x) (he : e ∈ l) : rank x ≤ rank e := by
  rcases h with ⟨rfl, -⟩ | ⟨-, hle⟩
  · simp at he
  · exact hle e he


theorem mem_of_ne (h : IsBest rank d l x) (hne : l ≠ []) : x ∈ l := by
  rcases h with ⟨hnil, -⟩ | ⟨hmem, -⟩
  · exact absurd hnil hne
  · exact hmem

/-- Only the entries matter. -/
theorem congr (h : IsBest rank d l x) (hl : ∀ e, e ∈ l' ↔ e ∈ l) : IsBest rank d l' x := by
  rcases h with ⟨rfl, rfl⟩ | ⟨hmem, hle⟩
  · exact .inl ⟨List.eq_nil_iff_forall_not_mem.2 fun e he => by simpa using (hl e).1 he, rfl⟩
  · exact .inr ⟨(hl x).2 hmem, fun e he => hle e ((hl e).1 he)⟩

/-- Entries of distinct ranks have one winner. -/
theorem unique (hx : IsBest rank d l x) (hy : IsBest rank d l y) (hl : (l.map rank).Nodup) :
    x = y := by
  rcases hx with ⟨rfl, rfl⟩ | ⟨hmem, hle⟩
  · rcases hy with ⟨-, rfl⟩ | ⟨hmem, -⟩
    · rfl
    · simp at hmem
  · have hne : l ≠ [] := List.ne_nil_of_mem hmem
    have hmem' : y ∈ l := hy.mem_of_ne hne
    have hrank : rank x = rank y := le_antisymm (hle y hmem') (hy.le hmem)
    exact List.inj_on_of_nodup_map hl hmem hmem' hrank

/-- A new entry wins when nothing before it is better. -/
theorem add (h : IsBest rank d l x) (hl : ∀ y, y ∈ l' ↔ y = e ∨ y ∈ l) (he : rank e ≤ rank x) :
    IsBest rank d l' e := by
  refine .inr ⟨(hl e).2 (.inl rfl), fun y hy => ?_⟩
  rcases (hl y).1 hy with rfl | hy
  · exact le_rfl
  · exact le_trans he (h.le hy)

/-- A new entry does not win when an entry before it is better. -/
theorem keep (h : IsBest rank d l x) (hl : ∀ y, y ∈ l' ↔ y = e ∨ y ∈ l) (he : rank x ≤ rank e)
    (hx : x ∈ l') : IsBest rank d l' x := by
  refine .inr ⟨hx, fun y hy => ?_⟩
  rcases (hl y).1 hy with rfl | hy
  · exact he
  · exact h.le hy

/-- The better one of a new entry and the winner before it. -/
theorem pick (h : IsBest rank d l x) (hl : ∀ y, y ∈ l' ↔ y = e ∨ y ∈ l) (hd : rank e ≤ rank d) :
    IsBest rank d l' (pick rank e x) := by
  unfold Priority.pick
  split
  · next he => exact h.add hl he
  · next he =>
    have hx : x ∈ l := h.mem_of_ne fun hnil => by
      obtain ⟨-, rfl⟩ | ⟨hmem, -⟩ := h
      · exact he hd
      · simp [hnil] at hmem
    exact h.keep hl (le_of_not_ge he) ((hl x).2 (.inr hx))

/-- A new entry does not win among some of the entries, so it does not among all. -/
theorem keep_second {part : List α} (h : IsBest rank d (l ++ part) x) (hy : IsBest rank d part y)
    (hl : ∀ z, z ∈ l' ↔ z = e ∨ z ∈ l ++ part) (hd : ∀ z, rank z ≤ rank d)
    (hpick : Priority.pick rank e y = y) : IsBest rank d l' x := by
  have hle : rank y ≤ rank e := by
    unfold Priority.pick at hpick
    split at hpick
    · exact hpick ▸ le_rfl
    · next he => exact le_of_not_ge he
  obtain ⟨rfl, rfl⟩ | ⟨hmem, -⟩ := hy
  · -- the default cannot be told from the new entry
    have heq : e = y := by simpa [Priority.pick, hd e] using hpick
    refine h.keep hl (le_trans (hd x) hle) ((hl x).2 ?_)
    obtain ⟨-, rfl⟩ | ⟨hmem, -⟩ := h
    · exact .inl heq.symm
    · exact .inr hmem
  · have hmem' : y ∈ l ++ part := List.mem_append_right _ hmem
    exact h.keep hl (le_trans (h.le hmem') hle)
      ((hl x).2 (.inr (h.mem_of_ne (List.ne_nil_of_mem hmem'))))

/-- Entries are taken back, and the winner is not one of them. -/
theorem withdraw (h : IsBest rank d l x) (hl : ∀ y ∈ l', y ∈ l) (hx : x ∈ l → x ∈ l') :
    IsBest rank d l' x := by
  rcases h with ⟨rfl, rfl⟩ | ⟨hmem, hle⟩
  · exact .inl ⟨List.eq_nil_iff_forall_not_mem.2 fun e he => by simpa using hl e he, rfl⟩
  · exact .inr ⟨hx hmem, fun y hy => hle y (hl y hy)⟩

end IsBest

end Priority
