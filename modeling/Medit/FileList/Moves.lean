import Medit.FileList.Shape

/-!
# Moving rows

A row that stays with its parent is put at another place; a row that gets another parent is copied
with everything below it and removed. Its own document is released before, the documents below it are
not.

## Main results

* `Frame.moveWithin`, `Frame.copyAway` — what the two ways to move do to the rows.
* `Good.moveRow` — a move keeps the items of the user rows, each once.
-/

namespace Medit.FileListPlugin

open LinkedForest

namespace FileList

variable {st : FileList} {user sep auto : List ℕ} {source : ℕ} {parent : Option ℕ} {index : ℕ}

/-- What a move does: each row of the new list comes from one of the old list with the same item, and
the row that is moved becomes a user row. -/
structure Moved (st st' : FileList) (source : ℕ) (sep auto user' sep' auto' : List ℕ)
    (σ : ℕ → ℕ) : Prop where
  frame : Frame st' user' sep' auto'
  from_live : ∀ y, st'.Live sep' y → st.Live sep (σ y) ∧ st'.item y = st.item (σ y)
  inj : ∀ y z, st'.Live sep' y → st'.Live sep' z → σ y = σ z → y = z
  onto : ∀ z, st.Live sep z → ∃ y, st'.Live sep' y ∧ σ y = z
  auto_iff : ∀ y, st'.Live sep' y → (y ∈ auto' ↔ σ y ∈ auto ∧ σ y ≠ source)
  stay : ∀ y, st'.Live sep' y → y < st.nextRow → σ y = y
  moved : ∀ y, st'.Live sep' y → σ y ≠ y → σ y ∈ st.rows.under source
  items : st'.items = st.items
  docs : st'.docs = st.docs
  docRow : st'.docRow = st.docRow
  uri : st'.uri = st.uri
  nextItem : st'.nextItem = st.nextItem
  nextRow : st.nextRow ≤ st'.nextRow
  item_old : ∀ y < st.nextRow, st'.item y = st.item y

/-! ## Within a parent -/

theorem length_before {tops : List ℕ} {n : ℕ} (hindex : index ≤ n) :
    ((tops.take index).erase source).length ≤ n := by
  have hle := (List.erase_sublist (a := source) (l := tops.take index)).length_le
  rw [List.length_take] at hle
  omega

/-- Without the row that moves there is a place less before it. -/
theorem length_before_lt {tops : List ℕ} {n : ℕ} (hindex : index ≤ n) (hlen : n ≤ tops.length)
    (hsource : source ∈ tops.take n) : ((tops.take index).erase source).length ≤ n - 1 := by
  by_cases hmem : source ∈ tops.take index
  · rw [List.length_erase_of_mem hmem, List.length_take]
    omega
  · have hne : index ≠ n := fun heq => hmem (heq ▸ hsource)
    have hle : ((tops.take index).erase source).length ≤ index := length_before (Nat.le_refl index)
    omega

section Within

variable (h : st.Frame user sep auto) (hsource : st.Live sep source)
include h hsource

/-- The row with what is below it, beside the other rows. -/
theorem Frame.source_nodes :
    (Forest.node source (st.rows.kidsOf source) .nil).nodes = st.rows.under source := by
  rw [Forest.under_eq h.layout.nodup hsource.1]
  simp

theorem Frame.source_new (next : ℕ) (hnext : st.nextRow ≤ next) :
    (Forest.node source (st.rows.kidsOf source) .nil).nodes.Nodup ∧
      ∀ y ∈ (Forest.node source (st.rows.kidsOf source) .nil).nodes,
        y ∉ (st.rows.without (· = source)).nodes ∧ y < next := by
  rw [h.source_nodes hsource]
  refine ⟨h.layout.nodup.sublist Forest.under_sublist, fun y hy => ⟨fun hmem => ?_, ?_⟩⟩
  · exact ((Forest.mem_without_self h.layout.nodup).1 hmem).2 hy
  · exact Nat.lt_of_lt_of_le (h.layout.fresh y (Forest.under_subset hy)) hnext

theorem Frame.mem_moveBefore (hparent : ∀ p ∈ parent, p ∈ (st.rows.without (· = source)).nodes)
    {y : ℕ} : y ∈ (moveBefore st.rows source parent index).nodes ↔ y ∈ st.rows.nodes := by
  have hnodup : (st.rows.without (· = source)).nodes.Nodup :=
    h.layout.nodup.sublist Forest.without_sublist
  have hsub := @Forest.under_subset ℕ source st.rows
  rw [moveBefore, Forest.mem_place hnodup hparent, h.source_nodes hsource,
    Forest.mem_without_self h.layout.nodup]
  grind

omit h hsource in
/-- All rows stay, one of them is no automatic row any more. -/
theorem moved_id {st' : FileList} {user' sep' : List ℕ}
    (hframe : st'.Frame user' sep' (auto.filter (· ≠ source)))
    (hlive : ∀ y, st'.Live sep' y ↔ st.Live sep y)
    (hlt : ∀ y, st.Live sep y → y < st.nextRow) (hitem : ∀ y < st.nextRow, st'.item y = st.item y)
    (hsame : st'.items = st.items ∧ st'.docs = st.docs ∧ st'.docRow = st.docRow ∧ st'.uri = st.uri ∧
      st'.nextItem = st.nextItem ∧ st.nextRow ≤ st'.nextRow) :
    Moved st st' source sep auto user' sep' (auto.filter (· ≠ source)) id where
  frame := hframe
  from_live y hy := ⟨(hlive y).1 hy, hitem y (hlt y ((hlive y).1 hy))⟩
  inj _ _ _ _ heq := heq
  onto z hz := ⟨z, (hlive z).2 hz, rfl⟩
  auto_iff y _ := by simp
  stay _ _ _ := rfl
  moved _ _ hne := absurd rfl hne
  items := hsame.1
  docs := hsame.2.1
  docRow := hsame.2.2.1
  uri := hsame.2.2.2.1
  nextItem := hsame.2.2.2.2.1
  nextRow := hsame.2.2.2.2.2
  item_old := hitem

/-- A row among the children of its parent. -/
theorem Frame.moveNested {p : ℕ} (hparent : st.rows.parentOf source = some p) :
    Moved st (st.moveWithin source (some p) index) source sep auto user sep
      (auto.filter (· ≠ source)) id := by
  obtain ⟨hp, hunder, hne⟩ := Forest.parentOf_eq_some h.layout.nodup hparent
  have htop : source ∉ st.rows.tops := Forest.not_mem_tops_of_under h.layout.nodup hunder hne
  rw [h.layout.tops_eq, List.mem_append, List.mem_append] at htop
  have hframe := (h.without (x := source) (by tauto) (by tauto)).1
  have hp' : p ∈ (st.rows.without (· = source)).nodes :=
    (Forest.mem_without_self h.layout.nodup).2
      ⟨hp, Forest.not_mem_under_of_under h.layout.nodup hp hunder hne⟩
  have hleaf : p ∉ sep ++ auto.filter (· ≠ source) := fun hmem => by
    refine h.layout.not_leaf hunder hne ?_
    grind
  obtain ⟨hnodup, hnew⟩ := h.source_new hsource st.nextRow (Nat.le_refl _)
  have hresult : st.moveWithin source (some p) index =
      { st with rows := moveBefore st.rows source (some p) index } := by
    simp [moveWithin]
  have hlayout := hframe.layout.placeNested
    (i := (((st.rows.siblings (some p)).take index).erase source).length) hp' hleaf hnodup hnew
  rw [hresult]
  refine moved_id ⟨hlayout, h.user_length, h.sep_length, h.sep_item⟩ (fun y => ?_)
    (fun y hy => h.layout.fresh y hy.1) (fun _ _ => rfl) ⟨rfl, rfl, rfl, rfl, rfl, Nat.le_refl _⟩
  have hmem {y : ℕ} : y ∈ (moveBefore st.rows source (some p) index).nodes ↔ y ∈ st.rows.nodes :=
    h.mem_moveBefore hsource fun q hq => by simp_all
  simp only [Live, hmem]

/-- A user row among the user rows. -/
theorem Frame.moveUser (huser : source ∈ user) (hindex : index ≤ st.nUserItems) :
    ∃ user', Moved st (st.moveWithin source none index) source sep auto user' sep
      (auto.filter (· ≠ source)) id := by
  have hauto : source ∉ auto := h.sep_nodup.2.1 huser
  have hnot : ¬ st.isAuto source := by
    rw [h.isAuto_iff, List.mem_append]
    exact fun hmem => hmem.elim hsource.2 hauto
  have hfilter {l : List ℕ} (hl : source ∉ l) : l.filter (fun y => !decide (y = source)) = l :=
    List.filter_eq_self.2 fun y hy => by simpa using ne_of_mem_of_not_mem hy hl
  have hlayout := h.layout.without (· = source)
  rw [hfilter hsource.2, hfilter hauto] at hlayout
  have hlen : (user.filter fun y => !decide (y = source)).length = st.nUserItems - 1 := by
    have hnodup : user.Nodup := by
      have hnodup := h.layout.tops_nodup
      simp only [List.append_assoc, List.nodup_append] at hnodup
      exact hnodup.1
    have herase : user.erase source = user.filter fun y => !decide (y = source) := by
      rw [hnodup.erase_eq_filter]
      congr
    rw [← herase, List.length_erase_of_mem huser, h.user_length]
  have htake : st.rows.tops.take st.nUserItems = user := by
    rw [h.layout.tops_eq, List.append_assoc, ← h.user_length, List.take_left]
  have hpos : ((st.rows.tops.take index).erase source).length ≤ st.nUserItems - 1 := by
    refine length_before_lt hindex ?_ (htake ▸ huser)
    rw [h.layout.tops_eq, List.append_assoc, List.length_append, h.user_length]
    omega
  have hpositive : st.nUserItems ≠ 0 := by
    rw [← h.user_length]
    exact fun heq => by simp [List.length_eq_zero_iff.1 heq] at huser
  obtain ⟨hnodup, hnew⟩ := h.source_new hsource st.nextRow (Nat.le_refl _)
  have hresult : st.moveWithin source none index =
      { st with rows := moveBefore st.rows source none index } := by
    simp [moveWithin, hnot]
  have hplaced := hlayout.placeTop hnodup hnew (hlen ▸ hpos)
  have hsame : auto = auto.filter (· ≠ source) := by simpa using (hfilter hauto).symm
  have hlayout' : Layout (moveBefore st.rows source none index) st.nextRow
      ((user.filter fun y => !decide (y = source)).take
          ((st.rows.tops.take index).erase source).length ++
        source :: (user.filter fun y => !decide (y = source)).drop
          ((st.rows.tops.take index).erase source).length) sep (auto.filter (· ≠ source)) := by
    rw [← hsame]
    exact hplaced
  rw [hresult]
  refine ⟨_, moved_id ⟨hlayout', ?_, h.sep_length, h.sep_item⟩ (fun y => ?_)
    (fun y hy => h.layout.fresh y hy.1) (fun _ _ => rfl) ⟨rfl, rfl, rfl, rfl, rfl, Nat.le_refl _⟩⟩
  · simp only [List.length_append, List.length_take, List.length_cons, List.length_drop, hlen]
    omega
  · have hmem {y : ℕ} : y ∈ (moveBefore st.rows source none index).nodes ↔ y ∈ st.rows.nodes :=
      h.mem_moveBefore hsource fun q hq => by simp at hq
    simp only [Live, hmem]

/-- An automatic row gets among the user rows. -/
theorem Frame.moveAuto (hauto : source ∈ auto) (hindex : index ≤ st.nUserItems) :
    ∃ user' sep', Moved st (st.moveWithin source none index) source sep auto user' sep'
      (auto.filter (· ≠ source)) id := by
  have huser : source ∉ user := fun hmem => h.sep_nodup.2.1 hmem hauto
  have his : st.isAuto source := h.isAuto_iff.2 (List.mem_append_right _ hauto)
  obtain ⟨hframe, -⟩ := h.without huser hsource.2
  have htake : (st.rows.tops.take index).erase source = st.rows.tops.take index := by
    refine List.erase_of_not_mem fun hmem => huser ?_
    have hsub : st.rows.tops.take index <+: st.rows.tops.take st.nUserItems :=
      List.take_prefix_take_left hindex
    have hmem := hsub.subset hmem
    rwa [h.layout.tops_eq, List.append_assoc, ← h.user_length, List.take_left] at hmem
  have hpos : ((st.rows.tops.take index).erase source).length = index := by
    rw [htake, List.length_take, h.layout.tops_eq, List.append_assoc, List.length_append,
      h.user_length]
    omega
  obtain ⟨hnodup, hnew⟩ := h.source_new hsource st.nextRow (Nat.le_refl _)
  have hplaced := hframe.layout.placeTop hnodup hnew (i := index) (h.user_length ▸ hindex)
  have hrows : moveBefore st.rows source none index =
      (st.rows.without (· = source)).insertTops index
        (.node source (st.rows.kidsOf source) .nil) := by
    rw [moveBefore, Forest.siblings, Forest.place, hpos]
  have hmem {y : ℕ} : y ∈ (moveBefore st.rows source none index).nodes ↔ y ∈ st.rows.nodes :=
    h.mem_moveBefore hsource fun q hq => by simp at hq
  rw [← hrows] at hplaced
  have hlen : (user.take index ++ source :: user.drop index).length = st.nUserItems + 1 := by
    have hlen := h.user_length
    simp only [List.length_append, List.length_take, List.length_cons, List.length_drop]
    omega
  by_cases hn : st.nUserItems = 0
  · -- with the first user row comes the separator
    obtain rfl := List.length_eq_zero_iff.1 (h.sep_length.trans (if_pos hn))
    have hresult : st.moveWithin source none index =
        { st with
          rows := (moveBefore st.rows source none index).insertTops 1 (.node st.nextRow .nil .nil)
          item := Function.update st.item st.nextRow none
          nUserItems := 1
          nextRow := st.nextRow + 1 } := by
      simp [moveWithin, insertSeparator, his, hn]
    have hrow : st.nextRow ∉ (moveBefore st.rows source none index).nodes := fun hx =>
      h.next_not_mem (Nat.le_refl _) (hmem.1 hx)
    have hsep := (hplaced.mono (Nat.le_succ st.nextRow)).placeSep ⟨hrow, Nat.lt_succ_self _⟩
    rw [hlen, hn] at hsep
    rw [hresult]
    refine ⟨_, [st.nextRow], moved_id ⟨hsep, ?_, rfl, by simp⟩ (fun y => ?_)
      (fun y hy => h.layout.fresh y hy.1) (fun y hy => ?_) ⟨rfl, rfl, rfl, rfl, rfl, Nat.le_succ _⟩⟩
    · rw [hlen, hn]
    · have hold : y ∈ st.rows.nodes → y ≠ st.nextRow := fun hy =>
        ne_of_mem_of_not_mem hy (h.next_not_mem (Nat.le_refl _))
      simp only [Live, Forest.perm_insertTops.mem_iff, List.mem_append, hmem, Forest.nodes_node,
        Forest.nodes_nil, List.append_nil, List.mem_singleton, List.not_mem_nil, not_false_eq_true,
        and_true]
      grind
    · exact Function.update_of_ne (Nat.ne_of_lt hy) _ _
  · have hresult : st.moveWithin source none index =
        { st with
          rows := moveBefore st.rows source none index
          nUserItems := st.nUserItems + 1 } := by
      simp [moveWithin, his, hn]
    rw [hresult]
    refine ⟨_, sep, moved_id ⟨hplaced, hlen, ?_, h.sep_item⟩ (fun y => ?_)
      (fun y hy => h.layout.fresh y hy.1) (fun _ _ => rfl) ⟨rfl, rfl, rfl, rfl, rfl, Nat.le_refl _⟩⟩
    · simpa [hn] using h.sep_length
    · simp only [Live, hmem]

/-- A row that stays with its parent. -/
theorem Frame.moveWithin (hparent : st.rows.parentOf source = parent)
    (hindex : parent = none → index ≤ st.nUserItems) :
    ∃ user' sep', Moved st (st.moveWithin source parent index) source sep auto user' sep'
      (auto.filter (· ≠ source)) id := by
  cases parent with
  | some p => exact ⟨user, sep, h.moveNested hsource hparent⟩
  | none =>
    rw [Forest.parentOf_eq_none h.layout.nodup hsource.1, h.layout.tops_eq, List.mem_append,
      List.mem_append] at hparent
    rcases hparent with (huser | hsep) | hauto
    · obtain ⟨user', hmoved⟩ := h.moveUser hsource huser (hindex rfl)
      exact ⟨user', sep, hmoved⟩
    · exact absurd hsep hsource.2
    · exact h.moveAuto hsource hauto (hindex rfl)

end Within

/-! ## To another parent -/

/-- The row that a row of the list comes from after a row has been copied: the new row from the one
that is moved, and those below it from those below that one. -/
def copiedFrom (source row next : ℕ) (y : ℕ) : ℕ :=
  if y = row then source else if next ≤ y then y - next else y

/-- A copy of the children of a row comes below a new row. -/
theorem Inserted.copyRowChildren {st₁ : FileList} {it : ℕ} {user₁ sep₁ : List ℕ}
    (hin : Inserted st st₁ it parent sep auto user₁ sep₁) (source : ℕ) :
    Frame (st₁.copyRowChildren source st.nextRow) user₁ sep₁ auto ∧
      (∀ y, (st₁.copyRowChildren source st.nextRow).Live sep₁ y ↔
        (∃ k ∈ (st₁.rows.kidsOf source).nodes, y = k + st₁.nextRow) ∨ st₁.Live sep₁ y) ∧
      (∀ y < st₁.nextRow, (st₁.copyRowChildren source st.nextRow).item y = st₁.item y) ∧
      (∀ k ∈ (st₁.rows.kidsOf source).nodes,
        (st₁.copyRowChildren source st.nextRow).item (k + st₁.nextRow) = st₁.item k) := by
  have hlayout := hin.frame.layout
  have hrow : st.nextRow ∈ st₁.rows.nodes ∧ st.nextRow ∉ sep₁ :=
    (hin.live_iff st.nextRow).2 (.inl rfl)
  have hleaf : st.nextRow ∉ sep₁ ++ auto := by simp [hrow.2, hin.not_auto]
  have hmap : ((st₁.rows.kidsOf source).map (· + st₁.nextRow)).nodes =
      (st₁.rows.kidsOf source).nodes.map (· + st₁.nextRow) := Forest.nodes_map _
  have hkids : (st₁.rows.kidsOf source).nodes.Nodup := by
    by_cases hmem : source ∈ st₁.rows.nodes
    · have hunder := hlayout.nodup.sublist (Forest.under_sublist (x := source))
      rw [Forest.under_eq hlayout.nodup hmem, List.nodup_cons] at hunder
      exact hunder.2
    · rw [Forest.kidsOf_of_not_mem hmem]
      exact List.nodup_nil
  have hnodup : ((st₁.rows.kidsOf source).map (· + st₁.nextRow)).nodes.Nodup := by
    rw [hmap]
    exact hkids.map fun a b heq => Nat.add_right_cancel heq
  have hlt {k : ℕ} (hk : k ∈ (st₁.rows.kidsOf source).nodes) : k < st₁.nextRow :=
    hlayout.fresh k (Forest.kidsOf_subset hk)
  have hnew : ∀ y ∈ ((st₁.rows.kidsOf source).map (· + st₁.nextRow)).nodes,
      y ∉ st₁.rows.nodes ∧ y < st₁.nextRow + st₁.nextRow := by
    rw [hmap]
    intro y hy
    obtain ⟨k, hk, rfl⟩ := List.mem_map.1 hy
    have hlt := hlt hk
    exact ⟨hin.frame.next_not_mem (Nat.le_add_left _ _), by omega⟩
  have hsep : ∀ x ∈ sep₁, x < st₁.nextRow := fun x hx =>
    hlayout.fresh x (hlayout.mem_of_tops (.inr (.inl hx)))
  have hitem : ∀ y < st₁.nextRow,
      (st₁.copyRowChildren source st.nextRow).item y = st₁.item y := fun y hy =>
    if_neg fun hle => absurd hy (Nat.not_lt.2 hle.1)
  refine ⟨⟨?_, hin.frame.user_length, hin.frame.sep_length, fun x hx => ?_⟩, fun y => ?_, hitem,
    fun k hk => ?_⟩
  · exact (hlayout.mono (Nat.le_add_left _ _)).placeNested hrow.1 hleaf hnodup hnew
  · rw [hitem x (hsep x hx)]
    exact hin.frame.sep_item x hx
  · simp only [Live, FileList.copyRowChildren, Forest.mem_insertAt hlayout.nodup hrow.1, hmap,
      List.mem_map]
    constructor
    · rintro ⟨⟨k, hk, rfl⟩ | hy, hnsep⟩
      · exact .inl ⟨k, hk, rfl⟩
      · exact .inr ⟨hy, hnsep⟩
    · rintro (⟨k, hk, rfl⟩ | ⟨hy, hnsep⟩)
      · exact ⟨.inl ⟨k, hk, rfl⟩, fun hmem => absurd (hsep _ hmem) (by omega)⟩
      · exact ⟨.inr hy, hnsep⟩
  · simp [FileList.copyRowChildren, hk]

/-- A row is copied with what is below it, and removed. -/
theorem Frame.copyAway (h : st.Frame user sep auto) (hsource : st.Live sep source) {it : ℕ}
    (hit : st.item source = some it) (hplace : st.Place sep auto parent)
    (hbelow : ∀ p ∈ parent, p ∉ st.rows.under source) :
    ∃ st' user' sep' auto' σ, (st.copyRow source parent index).removeRow source = some st' ∧
      Moved st st' source sep auto user' sep' auto' σ := by
  obtain ⟨user₁, sep₁, hin⟩ := h.insertRow it hplace index
  obtain ⟨hframe₂, hlive₂, hold₂, hcopy₂⟩ := hin.copyRowChildren source
  have hcopy : st.copyRow source parent index =
      (st.insertRow it parent index).copyRowChildren source st.nextRow := by
    simp [copyRow, hit]
  have hlive₁ : (st.insertRow it parent index).Live sep₁ source :=
    (hin.live_iff source).2 (.inr hsource)
  have hunder₁ := hin.under_iff source hsource.1 hbelow
  have hkids {k : ℕ} : k ∈ ((st.insertRow it parent index).rows.kidsOf source).nodes ↔
      k ∈ st.rows.under source ∧ k ≠ source := by
    have hnodup := hin.frame.layout.nodup.sublist (Forest.under_sublist (x := source))
    have heq := Forest.under_eq hin.frame.layout.nodup hlive₁.1
    rw [heq, List.nodup_cons] at hnodup
    rw [← hunder₁, heq, List.mem_cons]
    refine ⟨fun hk => ⟨.inr hk, fun hne => hnodup.1 (hne ▸ hk)⟩, fun hk => hk.1.resolve_left hk.2⟩
  have hlt {y : ℕ} (hy : st.Live sep y) : y < st.nextRow := h.layout.fresh y hy.1
  have hnext := hin.next
  -- what is below the row is not on top
  have hbelow_live {k : ℕ} (hk : k ∈ st.rows.under source) (hne : k ≠ source) :
      st.Live sep k ∧ k ∉ auto := by
    have htop := Forest.not_mem_tops_of_under h.layout.nodup hk hne
    rw [h.layout.tops_eq, List.mem_append, List.mem_append] at htop
    exact ⟨⟨Forest.under_subset hk, by tauto⟩, by tauto⟩
  have hmem₂ : source ∈ (st.copyRow source parent index).rows.nodes ∧ source ∉ sep₁ := by
    rw [hcopy]
    exact (hlive₂ source).2 (.inr hlive₁)
  have hunder₂ {z : ℕ} : z ∈ ((st.insertRow it parent index).copyRowChildren source
      st.nextRow).rows.under source ↔ z ∈ st.rows.under source := by
    have hnot : source ∉ (((st.insertRow it parent index).rows.kidsOf source).map
        (· + (st.insertRow it parent index).nextRow)).nodes := by
      rw [Forest.nodes_map, List.mem_map]
      rintro ⟨k, -, heq⟩
      have hlt := hlt hsource
      omega
    have hrow : st.nextRow ∉ st.rows.under source := fun hmem =>
      h.next_not_mem (Nat.le_refl _) (Forest.under_subset hmem)
    rw [FileList.copyRowChildren, Forest.mem_under_insertAt hin.frame.layout.nodup hnot, hunder₁,
      hunder₁]
    tauto
  rw [← hcopy] at hframe₂
  obtain ⟨st', user', sep', auto', heq, hframe, hremoved⟩ := hframe₂.removeRow hmem₂.1 hmem₂.2
  have hlive (y : ℕ) : st'.Live sep' y ↔ ((∃ k, (k ∈ st.rows.under source ∧ k ≠ source) ∧
      y = k + (st.insertRow it parent index).nextRow) ∨ y = st.nextRow ∨ st.Live sep y) ∧
        y ∉ st.rows.under source := by
    rw [hremoved.live_iff, hcopy, hlive₂, hin.live_iff, hunder₂]
    simp only [hkids]
  have hitem_old {y : ℕ} (hy : y < (st.insertRow it parent index).nextRow) :
      st'.item y = (st.insertRow it parent index).item y := by
    rw [hremoved.item, hcopy, hold₂ y hy]
  have hitem_live {y : ℕ} (hy : st.Live sep y) : st'.item y = st.item y := by
    have hlt := hlt hy
    rw [hitem_old (by omega), hin.item_old y hlt]
  have hσ {y : ℕ} (hy : st'.Live sep' y) :
      (∃ k, k ∈ st.rows.under source ∧ k ≠ source ∧
        y = k + (st.insertRow it parent index).nextRow ∧
          copiedFrom source st.nextRow (st.insertRow it parent index).nextRow y = k) ∨
        (y = st.nextRow ∧
          copiedFrom source st.nextRow (st.insertRow it parent index).nextRow y = source) ∨
        (st.Live sep y ∧ y ∉ st.rows.under source ∧
          copiedFrom source st.nextRow (st.insertRow it parent index).nextRow y = y) := by
    obtain ⟨⟨k, ⟨hk, hne⟩, rfl⟩ | rfl | hold, hnot⟩ := (hlive y).1 hy
    · refine .inl ⟨k, hk, hne, rfl, ?_⟩
      rw [copiedFrom, if_neg (by omega), if_pos (by omega), Nat.add_sub_cancel]
    · exact .inr (.inl ⟨rfl, if_pos rfl⟩)
    · have hlt := hlt hold
      refine .inr (.inr ⟨hold, hnot, ?_⟩)
      rw [copiedFrom, if_neg (by omega), if_neg (by omega)]
  refine ⟨st', user', sep', auto', copiedFrom source st.nextRow (st.insertRow it parent index).nextRow,
    heq, ⟨hframe, fun y hy => ?_, fun y z hy hz hyz => ?_, fun z hz => ?_, fun y hy => ?_,
      fun y hy hold => ?_, fun y hy hne => ?_, ?_, ?_, ?_, ?_, ?_, ?_, fun y hy => ?_⟩⟩
  · obtain ⟨k, hk, hne, rfl, hfrom⟩ | ⟨rfl, hfrom⟩ | ⟨hold, -, hfrom⟩ := hσ hy
    · rw [hfrom, hremoved.item, hcopy, hcopy₂ k (hkids.2 ⟨hk, hne⟩),
        hin.item_old k (h.layout.fresh k (Forest.under_subset hk))]
      exact ⟨(hbelow_live hk hne).1, rfl⟩
    · rw [hfrom, hitem_old hnext, hin.item_new, hit]
      exact ⟨hsource, rfl⟩
    · rw [hfrom]
      exact ⟨hold, hitem_live hold⟩
  · have hself := Forest.mem_under_self hsource.1
    obtain ⟨k, hk, hne, rfl, hfrom⟩ | ⟨rfl, hfrom⟩ | ⟨-, hnot, hfrom⟩ := hσ hy <;>
      obtain ⟨l, hl, hne', rfl, hfrom'⟩ | ⟨rfl, hfrom'⟩ | ⟨-, hnot', hfrom'⟩ := hσ hz <;>
      have heq := hfrom.symm.trans (hyz.trans hfrom') <;> grind
  · by_cases hzunder : z ∈ st.rows.under source
    · by_cases hne : z = source
      · subst hne
        refine ⟨st.nextRow, (hlive _).2 ⟨.inr (.inl rfl), fun hmem => ?_⟩, if_pos rfl⟩
        exact h.next_not_mem (Nat.le_refl _) (Forest.under_subset hmem)
      · refine ⟨z + (st.insertRow it parent index).nextRow,
          (hlive _).2 ⟨.inl ⟨z, ⟨hzunder, hne⟩, rfl⟩, fun hmem => ?_⟩, ?_⟩
        · exact h.next_not_mem (by omega) (Forest.under_subset hmem)
        · rw [copiedFrom, if_neg (by omega), if_pos (by omega), Nat.add_sub_cancel]
    · have hlt := hlt hz
      refine ⟨z, (hlive z).2 ⟨.inr (.inr hz), hzunder⟩, ?_⟩
      rw [copiedFrom, if_neg (by omega), if_neg (by omega)]
  · have hauto {z : ℕ} (hz : z ∈ auto) : z < st.nextRow :=
      h.layout.fresh z (h.layout.mem_of_tops (.inr (.inr hz)))
    rw [hremoved.auto_iff]
    obtain ⟨k, hk, hne, rfl, hfrom⟩ | ⟨rfl, hfrom⟩ | ⟨hold, hnot, hfrom⟩ := hσ hy
    · rw [hfrom]
      refine iff_of_false (fun hmem => ?_) fun hmem => (hbelow_live hk hne).2 hmem.1
      have hlt := hauto hmem.1
      omega
    · rw [hfrom]
      exact iff_of_false (fun hmem => hin.not_auto hmem.1) fun hmem => hmem.2 rfl
    · rw [hfrom]
  · obtain ⟨k, hk, hne, rfl, hfrom⟩ | ⟨rfl, hfrom⟩ | ⟨-, -, hfrom⟩ := hσ hy
    · omega
    · omega
    · exact hfrom
  · obtain ⟨k, hk, -, rfl, hfrom⟩ | ⟨rfl, hfrom⟩ | ⟨-, -, hfrom⟩ := hσ hy
    · rw [hfrom]
      exact hk
    · rw [hfrom]
      exact Forest.mem_under_self hsource.1
    · exact absurd hfrom hne
  · rw [hremoved.items, hcopy]
    exact hin.items
  · rw [hremoved.docs, hcopy]
    exact hin.docs
  · rw [hremoved.docRow, hcopy]
    exact hin.docRow
  · rw [hremoved.uri, hcopy]
    simp only [FileList.copyRowChildren, FileList.insertRow]
    split_ifs <;> rfl
  · rw [hremoved.nextItem, hcopy]
    exact hin.nextItem
  · rw [hremoved.nextRow, hcopy]
    simp only [FileList.copyRowChildren]
    omega
  · rw [hitem_old (by omega), hin.item_old y hy]

/-! ## Moving -/

/-- The rows of the user. -/
def userRows (st : FileList) : List ℕ := st.rows.nodes.filter fun row => !st.isAuto row

/-- What the rows of the user have. -/
def userItems (st : FileList) : List ℕ := st.userRows.filterMap st.item

theorem Frame.mem_userRows (h : st.Frame user sep auto) {x : ℕ} :
    x ∈ st.userRows ↔ st.Live sep x ∧ x ∉ auto := by
  have hauto := h.isAuto_iff (x := x)
  rw [List.mem_append] at hauto
  simp only [userRows, List.mem_filter, Bool.not_eq_true', Live]
  grind

theorem Frame.mem_userItems (h : st.Frame user sep auto) {it : ℕ} :
    it ∈ st.userItems ↔ ∃ x, st.Live sep x ∧ x ∉ auto ∧ st.item x = some it := by
  simp only [userItems, List.mem_filterMap, h.mem_userRows, and_assoc]

theorem Good.nodup_userItems (h : st.Good user sep auto) : st.userItems.Nodup := by
  refine List.pairwise_filterMap.2 ((h.layout.nodup.filter _).imp_of_mem ?_)
  intro x y hx hy hne it hit it' hit' heq
  obtain ⟨hx, -⟩ := h.mem_userRows.1 hx
  obtain ⟨hy, -⟩ := h.mem_userRows.1 hy
  exact hne (h.items.inj x y hx hy (hit.trans (heq ▸ hit'.symm)))

theorem docAt_eq {x it : ℕ} {uri : Option String} {doc : Option Doc} (hit : st.item x = some it)
    (hitem : st.items it = .file uri doc) : st.docAt x = doc := by
  simp [docAt, itemAt, hit, hitem]

/-- A file gives up its document, and has a URI then. -/
theorem Good.releaseDoc (h : st.Good user sep auto) (hsource : st.Live sep source) :
    st.releaseDoc source = none ∨ ∃ st₁, st.releaseDoc source = some st₁ ∧
      st₁.Frame user sep auto ∧ st₁.Items (st.Live sep) (fun y => y ∈ auto ∧ y ≠ source) ∧
      st₁.docAt source = none ∧ st₁.rows = st.rows ∧ st₁.item = st.item ∧
      st₁.nUserItems = st.nUserItems ∧ ∀ y, st.Live sep y → y ≠ source → st₁.docAt y = st.docAt y := by
  obtain ⟨it, hit⟩ := Option.isSome_iff_exists.1 (h.items.item_isSome hsource)
  cases hdoc : st.docAt source with
  | none =>
    -- only automatic rows have no other row to be
    have hauto : source ∉ auto := fun hmem => by
      obtain ⟨doc, hitem⟩ := h.items.auto source hsource hmem
      simp [docAt, hitem] at hdoc
    have hsame : st.releaseDoc source = some st := by
      simp only [FileList.releaseDoc, hit]
      split
      · rename_i uri doc hitem
        simp [docAt_eq hit hitem] at hdoc
      · rfl
    refine .inr ⟨st, hsame, h.toFrame, h.items.mono (fun _ hx => hx) fun y _ => ?_, hdoc, rfl, rfl, rfl,
      fun _ _ _ => rfl⟩
    exact ⟨And.left, fun hy => ⟨hy, ne_of_mem_of_not_mem hy hauto⟩⟩
  | some doc =>
    obtain ⟨uri, hitem⟩ : ∃ uri, st.items it = .file uri (some doc) := by
      cases hitem : st.items it with
      | group name => simp [docAt, itemAt, hit, hitem] at hdoc
      | file uri doc' =>
        rw [docAt_eq hit hitem] at hdoc
        exact ⟨uri, hdoc ▸ rfl⟩
    have hresult : st.releaseDoc source = (uri.or (st.uri doc)).map fun uri =>
        { st with
          items := Function.update st.items it (.file (some uri) none)
          docRow := Function.update st.docRow doc none } := by
      simp only [FileList.releaseDoc, hit, hitem]
    cases huri : uri.or (st.uri doc) with
    | none => exact .inl (by rw [hresult, huri, Option.map_none])
    | some u =>
      rw [huri, Option.map_some] at hresult
      obtain ⟨hmem, hrow⟩ := h.items.held source doc hsource hdoc
      refine .inr ⟨_, hresult, ⟨h.layout, h.user_length, h.sep_length, h.sep_item⟩,
        h.items.release hsource hit hdoc rfl fun _ _ => Iff.rfl, ?_, rfl, rfl, rfl,
        fun y hy hne => ?_⟩
      · simp [docAt, itemAt, hit]
      · let st₁ : FileList := { st with
          items := Function.update st.items it (.file (some u) none)
          docRow := Function.update st.docRow doc none }
        have hsame : st₁.item = st.item := rfl
        exact docAt_congr ((itemAt_update h.items hsource hit _ hsame rfl).2 y hy hne)

/-- What a move is for the list of the user: the same items, each once, and one more if an automatic
row has been moved. -/
def KeepsItems (st st' : FileList) (source : ℕ) : Prop :=
  st'.userItems.Perm st.userItems ∨
    st.isAuto source ∧ ∃ it, st.item source = some it ∧ st'.userItems.Perm (it :: st.userItems)

/-- A row gets to its place, where the documents below it do not leave their parents. -/
theorem Frame.placeRow (h : st.Frame user sep auto) (hsource : st.Live sep source)
    (hitem : (st.item source).isSome) (hplace : st.Place sep auto parent)
    (hbelow : ∀ p ∈ parent, p ∉ st.rows.under source)
    (hindex : parent = none → index ≤ st.nUserItems) :
    ∃ st' user' sep' auto' σ, st.placeRow source parent index = some st' ∧
      Moved st st' source sep auto user' sep' auto' σ ∧ (st.rows.parentOf source = parent → σ = id) := by
  unfold FileList.placeRow
  split_ifs with hparent
  · obtain ⟨user', sep', hmoved⟩ := h.moveWithin hsource hparent hindex
    exact ⟨_, user', sep', _, id, rfl, hmoved, fun _ => rfl⟩
  · obtain ⟨it, hit⟩ := Option.isSome_iff_exists.1 hitem
    obtain ⟨st', user', sep', auto', σ, heq, hmoved⟩ := h.copyAway hsource hit hplace hbelow
    exact ⟨st', user', sep', auto', σ, heq, hmoved, fun heq => absurd heq hparent⟩

theorem Moved.mem_userItems {st' : FileList} {user' sep' auto' : List ℕ} {σ : ℕ → ℕ}
    (h : Moved st st' source sep auto user' sep' auto' σ) {it : ℕ} :
    it ∈ st'.userItems ↔
      ∃ x, st.Live sep x ∧ (x ∉ auto ∨ x = source) ∧ st.item x = some it := by
  rw [h.frame.mem_userItems]
  constructor
  · rintro ⟨y, hy, hnot, hit⟩
    refine ⟨σ y, (h.from_live y hy).1, ?_, (h.from_live y hy).2 ▸ hit⟩
    rw [h.auto_iff y hy] at hnot
    tauto
  · rintro ⟨x, hx, hnot, hit⟩
    obtain ⟨y, hy, rfl⟩ := h.onto x hx
    refine ⟨y, hy, ?_, (h.from_live y hy).2.trans hit⟩
    rw [h.auto_iff y hy]
    tauto

/-- A move, where the documents below the row do not leave their parents. -/
theorem Good.moveRow (h : st.Good user sep auto) (hsource : st.Live sep source)
    (hplace : st.Place sep auto parent) (hbelow : ∀ p ∈ parent, p ∉ st.rows.under source)
    (hindex : parent = none → index ≤ st.nUserItems)
    (hdocs : st.rows.parentOf source ≠ parent → ∀ k ∈ st.rows.under source, k ≠ source →
      st.docAt k = none) :
    ∃ st' user' sep' auto', st.moveRow source parent index = some st' ∧ st'.Good user' sep' auto' ∧
      st.KeepsItems st' source := by
  unfold FileList.moveRow
  obtain hnone | ⟨st₁, hsome, hframe, hitems, hdoc, hrows, hitem, hn, hsame⟩ := h.releaseDoc hsource
  · rw [hnone]
    exact ⟨st, user, sep, auto, rfl, h, .inl (.refl _)⟩
  · rw [hsome]
    have hlive₁ {y : ℕ} : st₁.Live sep y ↔ st.Live sep y := by rw [Live, Live, hrows]
    obtain ⟨st', user', sep', auto', σ, heq, hmoved, hid⟩ :=
      hframe.placeRow (hlive₁.2 hsource) (hitem ▸ h.items.item_isSome hsource)
        (by simpa [Place, hrows] using hplace) (hrows ▸ hbelow)
        (show parent = none → index ≤ st₁.nUserItems from hn ▸ hindex)
    have hgood : st'.Items (st'.Live sep') (· ∈ auto') := by
      refine hitems.transfer σ ⟨hmoved.items, hmoved.docs, hmoved.docRow, hmoved.nextItem⟩
        hmoved.nextRow hmoved.item_old (fun y hy => ⟨hlive₁.1 (hmoved.from_live y hy).1, (hmoved.from_live y hy).2⟩)
        hmoved.inj hmoved.auto_iff hmoved.stay fun y hy hne => ?_
      by_cases hrow : σ y = source
      · rw [hrow, hdoc]
      · have hlive := hlive₁.1 (hmoved.from_live y hy).1
        rw [hsame (σ y) hlive hrow]
        refine hdocs (fun hparent => hne ?_) (σ y) (hrows ▸ hmoved.moved y hy hne) hrow
        rw [hid (hrows ▸ hparent)]
        rfl
    refine ⟨st', user', sep', auto', heq, ⟨hmoved.frame, hgood⟩, ?_⟩
    have hnodup : st'.userItems.Nodup := Good.nodup_userItems ⟨hmoved.frame, hgood⟩
    have hmem {it : ℕ} : it ∈ st'.userItems ↔
        ∃ x, st.Live sep x ∧ (x ∉ auto ∨ x = source) ∧ st.item x = some it := by
      rw [hmoved.mem_userItems, hitem]
      simp only [hlive₁]
    by_cases hauto : source ∈ auto
    · obtain ⟨it, hit⟩ := Option.isSome_iff_exists.1 (h.items.item_isSome hsource)
      refine .inr ⟨h.isAuto_iff.2 (List.mem_append_right _ hauto), it, hit, ?_⟩
      have hnew : it ∉ st.userItems := fun hold => by
        obtain ⟨x, hx, hnot, hit'⟩ := h.mem_userItems.1 hold
        exact hnot (h.items.inj x source hx hsource (hit'.trans hit.symm) ▸ hauto)
      refine (List.perm_ext_iff_of_nodup hnodup
        (List.nodup_cons.2 ⟨hnew, h.nodup_userItems⟩)).2 fun it' => ?_
      rw [hmem, List.mem_cons, h.mem_userItems]
      constructor
      · rintro ⟨x, hx, hnot | rfl, hit'⟩
        · exact .inr ⟨x, hx, hnot, hit'⟩
        · exact .inl (Option.some.inj (hit'.symm.trans hit))
      · rintro (rfl | ⟨x, hx, hnot, hit'⟩)
        · exact ⟨source, hsource, .inr rfl, hit⟩
        · exact ⟨x, hx, .inl hnot, hit'⟩
    · refine .inl ((List.perm_ext_iff_of_nodup hnodup h.nodup_userItems).2 fun it => ?_)
      rw [hmem, h.mem_userItems]
      constructor
      · rintro ⟨x, hx, hnot | rfl, hit⟩
        · exact ⟨x, hx, hnot, hit⟩
        · exact ⟨x, hx, hauto, hit⟩
      · rintro ⟨x, hx, hnot, hit⟩
        exact ⟨x, hx, .inl hnot, hit⟩

end FileList

end Medit.FileListPlugin
