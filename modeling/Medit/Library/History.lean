import Mathlib.Data.List.Nodup
import Mathlib.Data.List.TakeDrop

/-!
# Histories of reversible actions

Actions that were applied one after another, gathered in groups on an undo stack, and those that
were taken back, on a redo stack. `takes a x y` says that the action `a` leads from `x` to `y`.
Lists of actions and stacks of groups have the newest first.

## Main definitions

* `History.Path` — a list of actions leads from one state to another.
* `History.Timeline` — the states at the boundaries between the groups of both stacks.
* `History.SavedAt` — where among the actions the last saved state is, found by one pointer to
  the action next to it.
-/

namespace History

variable {α A ι : Type*} (takes : A → α → α → Prop)

/-- The actions `as` lead from `x` to `y`. -/
inductive Path : List A → α → α → Prop
  | nil (x : α) : Path [] x x
  | cons {a : A} {as : List A} {x y z : α} : Path as x y → takes a y z → Path (a :: as) x z

variable {takes}

namespace Path

variable {a : A} {as bs : List A} {x y z : α}

theorem single (h : takes a x y) : Path takes [a] x y := .cons (.nil x) h

theorem append (h : Path takes as x y) (h' : Path takes bs y z) : Path takes (bs ++ as) x z := by
  induction h' with
  | nil => exact h
  | cons _ ht ih => exact .cons (ih h) ht

theorem of_append (h : Path takes (bs ++ as) x z) : ∃ y, Path takes as x y ∧ Path takes bs y z := by
  induction bs generalizing z with
  | nil => exact ⟨z, h, .nil z⟩
  | cons b bs ih =>
    cases h with
    | cons h ht =>
      obtain ⟨y, hx, hy⟩ := ih h
      exact ⟨y, hx, .cons hy ht⟩

theorem takes_of_single (h : Path takes [a] x y) : takes a x y := by
  cases h with
  | cons h ht =>
    cases h with
    | nil => exact ht

end Path

/-! ## Groups -/

variable (takes) in
/-- The groups of an undo stack and the states before each of them. -/
inductive Past : List (List A) → List α → α → Prop
  | nil (x : α) : Past [] [] x
  | cons {g : List A} {gs : List (List A)} {xs : List α} {x y : α} :
      Past gs xs x → Path takes g x y → Past (g :: gs) (x :: xs) y

variable (takes) in
/-- The groups of a redo stack and the states after each of them. -/
inductive Future : List (List A) → α → List α → Prop
  | nil (x : α) : Future [] x []
  | cons {g : List A} {gs : List (List A)} {ys : List α} {x y : α} :
      Path takes g x y → Future gs y ys → Future (g :: gs) x (y :: ys)

variable (takes) in
/-- Both stacks around the state `now`, with the states at the boundaries of all groups, oldest
first. -/
def Timeline (undo redo : List (List A)) (now : α) (bounds : List α) : Prop :=
  ∃ past future, Past takes undo past now ∧ Future takes redo now future ∧
    bounds = past.reverse ++ now :: future

theorem Past.length {undo : List (List A)} {past : List α} {now : α}
    (h : Past takes undo past now) : past.length = undo.length := by
  induction h with
  | nil => rfl
  | cons _ _ ih => simp [ih]

theorem Future.length {redo : List (List A)} {future : List α} {now : α}
    (h : Future takes redo now future) : future.length = redo.length := by
  induction h with
  | nil => rfl
  | cons _ _ ih => simp [ih]

namespace Timeline

variable {us rs : List (List A)} {g : List A} {now : α} {bounds : List α}

theorem start (x : α) : Timeline takes [] [] x [x] := ⟨[], [], .nil x, .nil x, rfl⟩

/-- The state is the one recorded at its boundary. -/
theorem now_eq (h : Timeline takes us rs now bounds) : bounds[us.length]? = some now := by
  obtain ⟨past, future, hp, -, rfl⟩ := h
  rw [List.getElem?_append_right (by simp [hp.length])]
  simp [hp.length]

theorem length (h : Timeline takes us rs now bounds) :
    bounds.length = us.length + rs.length + 1 := by
  obtain ⟨past, future, hp, hf, rfl⟩ := h
  simp [hp.length, hf.length]
  omega

/-- Taking back the newest group leads to the boundary before it. -/
theorem undo (h : Timeline takes (g :: us) rs now bounds) :
    ∃ x, Path takes g x now ∧ Timeline takes us (g :: rs) x bounds := by
  obtain ⟨past, future, hp, hf, rfl⟩ := h
  cases hp with
  | cons hp hg => exact ⟨_, hg, _, _, hp, .cons hg hf, by simp⟩

/-- Applying the group that was taken back last leads to the boundary after it. -/
theorem redo (h : Timeline takes us (g :: rs) now bounds) :
    ∃ y, Path takes g now y ∧ Timeline takes (g :: us) rs y bounds := by
  obtain ⟨past, future, hp, hf, rfl⟩ := h
  cases hf with
  | cons hg hf => exact ⟨_, hg, _, _, .cons hp hg, hf, by simp⟩

/-- A new group; what was taken back is forgotten. -/
theorem push {next : α} (h : Timeline takes us rs now bounds) (hg : Path takes g now next) :
    Timeline takes (g :: us) [] next (bounds.take (us.length + 1) ++ [next]) := by
  obtain ⟨past, future, hp, -, rfl⟩ := h
  refine ⟨_, _, .cons hp hg, .nil next, ?_⟩
  simp [List.take_append, hp.length]

/-- The newest group becomes another one; what was taken back is forgotten. -/
theorem extend {g' : List A} {next : α} (h : Timeline takes (g :: us) rs now bounds)
    (hg : ∀ x, Path takes g x now → Path takes g' x next) :
    Timeline takes (g' :: us) [] next (bounds.take (us.length + 1) ++ [next]) := by
  obtain ⟨past, future, hp, -, rfl⟩ := h
  cases hp with
  | cons hp hpg =>
    refine ⟨_, _, .cons hp (hg _ hpg), .nil next, ?_⟩
    simp [List.take_append, hp.length]

end Timeline

/-! ## The saved state -/

/-- What undoing or redoing `a` does to the modified flag and to the pointer. -/
def settle [DecidableEq ι] (modified : Bool) (pointer : Option ι) (a : ι) : Bool × Option ι :=
  if modified then if pointer = some a then (false, none) else (true, pointer)
  else (true, some a)

theorem filter_le_of_le {i n : ℕ} (h : i ≤ n) : (some i).filter (fun i => i ≤ n) = some i :=
  if_pos (decide_eq_true h)

theorem filter_le_of_lt {i n : ℕ} (h : n < i) : (some i).filter (fun i => i ≤ n) = none :=
  if_neg (by simpa using h)

variable (takes) in
/-- The state `saved` among the actions `past` that were applied, newest first, and those in
`future` that were taken back, next first. Its place is the number of actions before it, if no
action between it and the state `now` is lost. -/
inductive SavedAt (addr : A → ι) (past future : List A) (now saved : α) :
    Bool → Option ι → Option ℕ → Prop
  | here : now = saved → SavedAt addr past future now saved false none (some past.length)
  | behind {p₁ p₂ : List A} {a : A} : past = p₁ ++ a :: p₂ →
      Path takes (p₁ ++ [a]) saved now →
      SavedAt addr past future now saved true (some (addr a)) (some p₂.length)
  | ahead {f₁ f₂ : List A} {a : A} : future = f₁ ++ a :: f₂ →
      Path takes (a :: f₁.reverse) now saved →
      SavedAt addr past future now saved true (some (addr a))
        (some (past.length + f₁.length + 1))
  | gone : SavedAt addr past future now saved true none none

namespace SavedAt

variable {addr : A → ι} {past future : List A} {now saved x : α} {modified : Bool}
  {pointer : Option ι} {place : Option ℕ} {a : A}

/-- Only at the saved state is the flag clear. -/
theorem eq_saved (h : SavedAt takes addr past future now saved false pointer place) :
    now = saved := by
  cases h with
  | here h => exact h

/-- With a clear flag there is no pointer. -/
theorem pointer_eq_none (h : SavedAt takes addr past future now saved modified pointer place)
    (hm : modified = false) : pointer = none := by
  subst hm
  cases h with
  | here => rfl

/-- At the saved state the flag is clear. -/
theorem not_modified
    (h : SavedAt takes addr past future now saved modified pointer (some past.length)) :
    modified = false := by
  generalize hplace : some past.length = place at h
  cases h with
  | here => rfl
  | behind hpast =>
    simp [hpast] at hplace
    omega
  | ahead =>
    simp at hplace
    omega
  | gone => simp at hplace

variable [DecidableEq ι]

/-- Taking back the newest action. -/
theorem undo (h : SavedAt takes addr (a :: past) future now saved modified pointer place)
    (hfun : ∀ {a x x' y}, takes a x y → takes a x' y → x = x') (hx : takes a x now)
    (hnd : ((a :: past ++ future).map addr).Nodup) :
    SavedAt takes addr past (a :: future) x saved (settle modified pointer (addr a)).1
      (settle modified pointer (addr a)).2 place := by
  cases h with
  | here hnow =>
    subst hnow
    exact .ahead (List.nil_append _).symm (.single hx)
  | @behind p₁ p₂ b hpast hpath =>
    cases p₁ with
    | nil =>
      obtain ⟨rfl, rfl⟩ : a = b ∧ past = p₂ := by simpa using hpast
      have := hfun hx hpath.takes_of_single
      simpa [settle] using SavedAt.here this
    | cons c p₁ =>
      obtain ⟨rfl, rfl⟩ : a = c ∧ past = p₁ ++ b :: p₂ := by simpa using hpast
      have hne : addr b ≠ addr a := by
        simp only [List.cons_append, List.map_cons, List.nodup_cons] at hnd
        intro heq
        exact hnd.1 (by simp [← heq])
      cases hpath with
      | cons hpath ht =>
        obtain rfl := hfun hx ht
        simpa [settle, hne] using SavedAt.behind rfl hpath
  | @ahead f₁ f₂ b hfuture hpath =>
    have hne : addr b ≠ addr a := by
      simp only [List.cons_append, List.map_cons, List.nodup_cons] at hnd
      intro heq
      exact hnd.1 (by simp [← heq, hfuture])
    have hpath : Path takes (b :: (a :: f₁).reverse) x saved := by
      simpa using (Path.single hx).append hpath
    have : SavedAt takes addr past (a :: future) x saved true (some (addr b))
        (some (past.length + (a :: f₁).length + 1)) :=
      .ahead (by rw [hfuture]; rfl) hpath
    have hcount : past.length + (f₁.length + 1) + 1 = (a :: past).length + f₁.length + 1 := by
      simp
      omega
    rw [List.length_cons, hcount] at this
    simpa [settle, hne] using this
  | gone => exact .gone

/-- Applying the action that was taken back last. -/
theorem redo (h : SavedAt takes addr past (a :: future) now saved modified pointer place)
    (hfun : ∀ {a x y y'}, takes a x y → takes a x y' → y = y') (hx : takes a now x)
    (hnd : ((past ++ a :: future).map addr).Nodup) :
    SavedAt takes addr (a :: past) future x saved (settle modified pointer (addr a)).1
      (settle modified pointer (addr a)).2 place := by
  have hother {b : A} (hb : b ∈ past ∨ b ∈ future) : addr b ≠ addr a := by
    rw [List.map_append, List.map_cons, List.nodup_middle, List.nodup_cons] at hnd
    intro heq
    refine hnd.1 ?_
    rw [← heq, ← List.map_append]
    exact List.mem_map_of_mem (List.mem_append.2 hb)
  cases h with
  | here hnow =>
    subst hnow
    exact .behind (List.nil_append _).symm (.single hx)
  | @behind p₁ p₂ b hpast hpath =>
    have hne := hother (b := b) (.inl (by simp [hpast]))
    have : SavedAt takes addr (a :: past) future x saved true (some (addr b)) (some p₂.length) :=
      .behind (by rw [hpast, List.cons_append]) (Path.cons hpath hx)
    simpa [settle, hne] using this
  | @ahead f₁ f₂ b hfuture hpath =>
    cases f₁ with
    | nil =>
      obtain ⟨rfl, rfl⟩ : a = b ∧ future = f₂ := by simpa using hfuture
      have := hfun hx hpath.takes_of_single
      have : SavedAt takes addr (a :: past) future x saved false none (some (a :: past).length) :=
        .here this
      simpa [settle] using this
    | cons c f₁ =>
      obtain ⟨rfl, rfl⟩ : a = c ∧ future = f₁ ++ b :: f₂ := by simpa using hfuture
      have hne := hother (b := b) (.inr (by simp))
      have hsplit : Path takes ((b :: f₁.reverse) ++ [a]) now saved := by simpa using hpath
      obtain ⟨y, hy, hpath⟩ := hsplit.of_append
      obtain rfl := hfun hx hy.takes_of_single
      have hcount : (a :: past).length + f₁.length + 1 = past.length + (a :: f₁).length + 1 := by
        simp
        omega
      have : SavedAt takes addr (a :: past) (f₁ ++ b :: f₂) x saved true (some (addr b))
          (some ((a :: past).length + f₁.length + 1)) := .ahead rfl hpath
      rw [hcount] at this
      simpa [settle, hne] using this
  | gone => exact .gone

/-- A new action, which the pointer shows if the state before it is the saved one. What was taken
back is lost, and the pointer with it if it is there. -/
theorem push (h : SavedAt takes addr past future now saved modified pointer place)
    (hx : takes a now x) (hnd : ((past ++ future).map addr).Nodup) :
    SavedAt takes addr (a :: past) [] x saved true
      (if modified then pointer.filter fun p => p ∉ future.map addr else some (addr a))
      (place.filter fun i => i ≤ past.length) := by
  cases h with
  | here hnow =>
    subst hnow
    rw [filter_le_of_le (Nat.le_refl _)]
    exact .behind (List.nil_append _).symm (.single hx)
  | @behind p₁ p₂ b hpast hpath =>
    have hnot : addr b ∉ future.map addr := fun hmem => by
      rw [List.map_append, List.nodup_append] at hnd
      exact hnd.2.2 _ (List.mem_map_of_mem (by simp [hpast])) _ hmem rfl
    have hle : p₂.length ≤ past.length := by
      simp [hpast]
      omega
    rw [filter_le_of_le hle]
    have : SavedAt takes addr (a :: past) [] x saved true (some (addr b)) (some p₂.length) :=
      .behind (by rw [hpast, List.cons_append]) (Path.cons hpath hx)
    simpa [Option.filter, hnot] using this
  | @ahead f₁ f₂ b hfuture hpath =>
    have hmem : addr b ∈ future.map addr := by simp [hfuture]
    rw [filter_le_of_lt (by omega)]
    simpa [Option.filter, hmem] using SavedAt.gone
  | gone => exact .gone

/-- The newest action becomes another one at the same address that takes a longer way. -/
theorem replace {b : A}
    (h : SavedAt takes addr (a :: past) future now saved true pointer place)
    (haddr : addr b = addr a) (hx : ∀ y, takes a y now → takes b y x)
    (hnd : ((a :: past ++ future).map addr).Nodup) :
    SavedAt takes addr (b :: past) [] x saved true
      (pointer.filter fun p => p ∉ future.map addr) (place.filter fun i => i ≤ past.length) := by
  cases h with
  | @behind p₁ p₂ c hpast hpath =>
    have hnot : addr c ∉ future.map addr := fun hmem => by
      rw [List.map_append, List.nodup_append] at hnd
      exact hnd.2.2 _ (List.mem_map_of_mem (by simp [hpast])) _ hmem rfl
    cases p₁ with
    | nil =>
      obtain ⟨rfl, rfl⟩ : a = c ∧ past = p₂ := by simpa using hpast
      have : SavedAt takes addr (b :: past) [] x saved true (some (addr b)) (some past.length) :=
        .behind (List.nil_append _).symm (.single (hx _ hpath.takes_of_single))
      rw [filter_le_of_le (Nat.le_refl _)]
      simpa [Option.filter, hnot, haddr] using this
    | cons d p₁ =>
      obtain ⟨rfl, rfl⟩ : a = d ∧ past = p₁ ++ c :: p₂ := by simpa using hpast
      have hle : p₂.length ≤ (p₁ ++ c :: p₂).length := by
        simp
        omega
      cases hpath with
      | cons hpath ht =>
        have : SavedAt takes addr (b :: (p₁ ++ c :: p₂)) [] x saved true (some (addr c))
            (some p₂.length) := .behind List.cons_append.symm (Path.cons hpath (hx _ ht))
        rw [filter_le_of_le hle]
        simpa [Option.filter, hnot] using this
  | @ahead f₁ f₂ c hfuture hpath =>
    have hmem : addr c ∈ future.map addr := by simp [hfuture]
    rw [filter_le_of_lt (by rw [List.length_cons]; omega)]
    simpa [Option.filter, hmem] using SavedAt.gone
  | gone => exact .gone

end SavedAt

end History
