import Medit.Library.Words

/-!
# Names of files

The components of a path, and the ones that are left when it is read from the left and each
component for the parent takes the last one away.

## Main definitions

* `PathNames.pieces` — the components that are not empty.
* `PathNames.resolve` — the names a list of components leads to.

## Main results

* `PathNames.pieces_intercalate` — joined names come apart again.
* `PathNames.resolve_names` — names lead to themselves.
-/

namespace PathNames

variable {α : Type*} [DecidableEq α] (sep : α) (dot dotdot : List α)

/-- The components of a path, without the empty ones. -/
def pieces (path : List α) : List (List α) := (path.splitOn sep).filter (· ≠ [])

/-- A component that is read behind others. -/
def visit (comps : List (List α)) (s : List α) : List (List α) :=
  if s = dot then comps else if s = dotdot then comps.dropLast else comps ++ [s]

/-- Components that are read behind others, from the left to the right. -/
def resolve (comps l : List (List α)) : List (List α) := l.foldl (visit dot dotdot) comps

/-- A component that is the name of a file. -/
def IsName (s : List α) : Prop := s ≠ [] ∧ s ≠ dot ∧ s ≠ dotdot ∧ sep ∉ s

/-! ## Components -/

variable {sep dot dotdot}

@[simp] theorem pieces_nil : pieces sep [] = [] := rfl

theorem pieces_append_sep (p q : List α) :
    pieces sep (p ++ sep :: q) = pieces sep p ++ pieces sep q := by
  rw [pieces, List.splitOn_append_cons_self, List.filter_append, pieces, pieces]

theorem pieces_sep_cons (p : List α) : pieces sep (sep :: p) = pieces sep p :=
  pieces_append_sep [] p

theorem pieces_seps_append {l : List α} (h : ∀ a ∈ l, a = sep) (p : List α) :
    pieces sep (l ++ p) = pieces sep p := by
  induction l with
  | nil => rfl
  | cons a l ih =>
    obtain ⟨rfl, hl⟩ := List.forall_mem_cons.1 h
    rw [List.cons_append, pieces_sep_cons, ih hl]

theorem pieces_append_seps {l : List α} (h : ∀ a ∈ l, a = sep) (p : List α) :
    pieces sep (p ++ l) = pieces sep p := by
  cases l with
  | nil => rw [List.append_nil]
  | cons a l =>
    obtain ⟨rfl, hl⟩ := List.forall_mem_cons.1 h
    rw [pieces_append_sep, ← List.append_nil l, pieces_seps_append hl, pieces_nil, List.append_nil]

theorem notMem_of_mem_splitOn {path s : List α} (h : s ∈ path.splitOn sep) : sep ∉ s := by
  rw [List.splitOn_eq_splitOnP] at h
  exact fun hmem => by simpa using Words.not_sep_of_mem_splitOnP h sep hmem

theorem mem_pieces {path s : List α} (h : s ∈ pieces sep path) : s ≠ [] ∧ sep ∉ s := by
  obtain ⟨hs, hne⟩ := List.mem_filter.1 h
  exact ⟨by simpa using hne, notMem_of_mem_splitOn hs⟩

/-- Components that are joined come apart again. -/
theorem pieces_intercalate {l : List (List α)} (h : ∀ s ∈ l, s ≠ [] ∧ sep ∉ s) :
    pieces sep ([sep].intercalate l) = l := by
  by_cases hl : l = []
  · subst hl
    rfl
  · rw [pieces, List.splitOn_intercalate sep (fun s hs => (h s hs).2) hl, List.filter_eq_self]
    exact fun s hs => by simpa using (h s hs).1

/-! ## Reading -/

theorem resolve_append (comps l l' : List (List α)) :
    resolve dot dotdot comps (l ++ l') = resolve dot dotdot (resolve dot dotdot comps l) l' :=
  List.foldl_append

theorem mem_resolve {comps l : List (List α)} {s : List α} (h : s ∈ resolve dot dotdot comps l) :
    s ∈ comps ∨ s ∈ l ∧ s ≠ dot ∧ s ≠ dotdot := by
  induction l generalizing comps with
  | nil => exact .inl h
  | cons t l ih =>
    rcases ih h with hs | ⟨hs, hne⟩
    · unfold visit at hs
      split_ifs at hs with hdot hdotdot
      · exact .inl hs
      · exact .inl (List.dropLast_subset _ hs)
      · rcases List.mem_append.1 hs with hs | hs
        · exact .inl hs
        · rw [List.mem_singleton] at hs
          subst hs
          exact .inr ⟨List.mem_cons_self, hdot, hdotdot⟩
    · exact .inr ⟨List.mem_cons_of_mem t hs, hne⟩

/-- What the components of a path lead to are names. -/
theorem isName_of_mem_resolve {path s : List α}
    (h : s ∈ resolve dot dotdot [] (pieces sep path)) : IsName sep dot dotdot s := by
  rcases mem_resolve h with hs | ⟨hs, hdot, hdotdot⟩
  · simp at hs
  · obtain ⟨hne, hsep⟩ := mem_pieces hs
    exact ⟨hne, hdot, hdotdot, hsep⟩

/-- Names lead to themselves. -/
theorem resolve_names {comps l : List (List α)} (h : ∀ s ∈ l, IsName sep dot dotdot s) :
    resolve dot dotdot comps l = comps ++ l := by
  induction l generalizing comps with
  | nil => simp [resolve]
  | cons s l ih =>
    obtain ⟨⟨_, hdot, hdotdot, _⟩, hl⟩ := List.forall_mem_cons.1 h
    have hvisit : visit dot dotdot comps s = comps ++ [s] := by
      rw [visit, if_neg hdot, if_neg hdotdot]
    rw [resolve, List.foldl_cons, hvisit]
    exact (ih hl).trans (by simp)

end PathNames
