import Mathlib.Order.WellFounded

/-!
# Loops as rounds

A loop is a function that goes from the state at the start of a round to the next one, or ends.

## Main definitions

* `Rounds.run` — the state after a number of rounds, or the result.
* `Rounds.Descends` — every round keeps an invariant and takes a measure down.

## Main results

* `Rounds.Descends.exists_result` — such a loop ends.
* `Rounds.Descends.run_injective` — no state of it comes again.
-/

namespace Rounds

variable {σ ρ α : Type*}

def run (round : σ → σ ⊕ ρ) : ℕ → σ → σ ⊕ ρ
  | 0, s => .inl s
  | n + 1, s =>
    match round s with
    | .inl s' => run round n s'
    | .inr result => .inr result

/-- A round that is not the last one keeps the invariant and takes the measure down. -/
def Descends [LT α] (round : σ → σ ⊕ ρ) (Inv : σ → Prop) (measure : σ → α) : Prop :=
  ∀ s s', Inv s → round s = .inl s' → Inv s' ∧ measure s' < measure s

variable {round : σ → σ ⊕ ρ} {Inv : σ → Prop} {measure : σ → α} {s u : σ}

theorem run_succ {s' : σ} (h : round s = .inl s') (n : ℕ) :
    run round (n + 1) s = run round n s' := by
  rw [run, h]

/-- The rounds after some rounds. -/
theorem run_add {m : ℕ} (h : run round m s = .inl u) (n : ℕ) :
    run round (m + n) s = run round n u := by
  induction m generalizing s with
  | zero =>
    obtain rfl := Sum.inl.inj h
    rw [Nat.zero_add]
  | succ m ih =>
    cases hround : round s with
    | inl s' =>
      rw [run_succ hround] at h
      rw [Nat.succ_add, run_succ hround, ih h]
    | inr result => simp [run, hround] at h

namespace Descends

/-- A loop that goes down ends. -/
theorem exists_result [Preorder α] [WellFoundedLT α] (h : Descends round Inv measure) (hs : Inv s) :
    ∃ n result, run round n s = .inr result := by
  induction hm : measure s using WellFoundedLT.induction generalizing s with
  | ind m ih =>
    cases hround : round s with
    | inr result => exact ⟨1, result, by simp [run, hround]⟩
    | inl s' =>
      obtain ⟨hs', hlt⟩ := h s s' hs hround
      obtain ⟨n, result, hrun⟩ := ih _ (hm ▸ hlt) hs' rfl
      exact ⟨n + 1, result, by rw [run_succ hround, hrun]⟩

theorem measure_lt [Preorder α] (h : Descends round Inv measure) (hs : Inv s) {n : ℕ}
    (hrun : run round (n + 1) s = .inl u) : measure u < measure s := by
  induction n generalizing s with
  | zero =>
    cases hround : round s with
    | inl s' =>
      rw [run_succ hround] at hrun
      obtain rfl := Sum.inl.inj hrun
      exact (h s _ hs hround).2
    | inr result => simp [run, hround] at hrun
  | succ n ih =>
    cases hround : round s with
    | inl s' =>
      rw [run_succ hround] at hrun
      obtain ⟨hs', hlt⟩ := h s s' hs hround
      exact (ih hs' hrun).trans hlt
    | inr result => simp [run, hround] at hrun

theorem inv_run [LT α] (h : Descends round Inv measure) (hs : Inv s) {n : ℕ}
    (hrun : run round n s = .inl u) : Inv u := by
  induction n generalizing s with
  | zero => exact Sum.inl.inj hrun ▸ hs
  | succ n ih =>
    cases hround : round s with
    | inl s' =>
      rw [run_succ hround] at hrun
      exact ih (h s s' hs hround).1 hrun
    | inr result => simp [run, hround] at hrun

/-- A state that is left does not come again. -/
theorem run_ne [Preorder α] (h : Descends round Inv measure) (hs : Inv s) {m n : ℕ} (hlt : m < n)
    (hm : run round m s = .inl u) : run round n s ≠ .inl u := by
  obtain ⟨k, rfl⟩ : ∃ k, n = m + (k + 1) := ⟨n - m - 1, by omega⟩
  rw [run_add hm]
  exact fun hk => lt_irrefl _ (h.measure_lt (h.inv_run hs hm) hk)

/-- No two states of a run are the same. -/
theorem run_injective [Preorder α] (h : Descends round Inv measure) (hs : Inv s) {m n : ℕ}
    (hm : run round m s = .inl u) (hn : run round n s = .inl u) : m = n := by
  rcases lt_trichotomy m n with hlt | heq | hlt
  · exact absurd hn (h.run_ne hs hlt hm)
  · exact heq
  · exact absurd hm (h.run_ne hs hlt hn)

end Descends

end Rounds
