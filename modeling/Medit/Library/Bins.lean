import Mathlib.Data.List.Nodup
import Mathlib.Data.List.Pairwise
import Mathlib.Data.List.Perm.Basic

/-!
# Items in bins

A list of bins, each with a list of items, and a list of loose items. An item that occurs once
among all of them is in one place.

## Main definitions

* `items` — the items of the bins in order, then the loose ones.

## Main results

* `items_filter`, `perm_items_append`, `items_erase_empty`, `items_concat_empty` — what happens to
  the items when some are taken out everywhere, some are put in a bin, a bin without items goes or
  comes.
* `bin_unique` — an item that occurs once is in one bin.
-/

namespace Medit.Bins

variable {ι α : Type*} {bins : List ι} {f g : ι → List α} {loose : List α} {b c : ι} {x : α}

/-- All items. -/
def items (bins : List ι) (f : ι → List α) (loose : List α) : List α := bins.flatMap f ++ loose

theorem mem_items : x ∈ items bins f loose ↔ (∃ b ∈ bins, x ∈ f b) ∨ x ∈ loose := by
  simp [items]

theorem items_congr (h : ∀ b ∈ bins, g b = f b) : items bins g loose = items bins f loose := by
  simp only [items, List.flatMap]
  rw [List.map_congr_left h]

theorem items_filter (p : α → Bool) (h : ∀ b ∈ bins, g b = (f b).filter p) :
    items bins g (loose.filter p) = (items bins f loose).filter p := by
  rw [items, items, List.filter_append]
  congr 1
  induction bins with
  | nil => simp
  | cons b bins ih =>
    rw [List.flatMap_cons, List.flatMap_cons, List.filter_append, h b List.mem_cons_self,
      ih fun c hc => h c (List.mem_cons_of_mem _ hc)]

theorem perm_items_append {xs : List α} (hn : bins.Nodup) (hb : b ∈ bins)
    (hg : (g b).Perm (xs ++ f b)) (h : ∀ c, c ≠ b → g c = f c) :
    (items bins g loose).Perm (xs ++ items bins f loose) := by
  suffices (bins.flatMap g).Perm (xs ++ bins.flatMap f) by
    simpa [items] using this.append_right loose
  induction bins with
  | nil => simp at hb
  | cons c bins ih =>
    obtain ⟨hc, hn⟩ := List.nodup_cons.mp hn
    rw [List.flatMap_cons, List.flatMap_cons]
    rcases List.mem_cons.mp hb with rfl | hb
    · have hrest : bins.flatMap g = bins.flatMap f := by
        simp only [List.flatMap]
        rw [List.map_congr_left fun c hmem => h c fun heq => hc (heq ▸ hmem)]
      rw [hrest, ← List.append_assoc]
      exact hg.append_right _
    · rw [h c fun heq => hc (heq ▸ hb), ← List.append_assoc]
      refine ((ih hn hb).append_left (f c)).trans ?_
      rw [← List.append_assoc]
      exact List.perm_append_comm.append_right _

theorem perm_items_insert (hn : bins.Nodup) (hb : b ∈ bins) (hg : (g b).Perm (x :: f b))
    (h : ∀ c, c ≠ b → g c = f c) : (items bins g loose).Perm (x :: items bins f loose) := by
  have happend : (items bins g loose).Perm ([x] ++ items bins f loose) :=
    perm_items_append hn hb hg h
  exact happend

theorem items_insert_of_notMem (hb : b ∉ bins) (h : ∀ c, c ≠ b → g c = f c) :
    items bins g loose = items bins f loose :=
  items_congr fun c hc => h c fun heq => hb (heq ▸ hc)

theorem items_erase_empty [DecidableEq ι] (hb : f b = []) :
    items (bins.erase b) f loose = items bins f loose := by
  rw [items, items]
  congr 1
  induction bins with
  | nil => simp
  | cons c bins ih =>
    rw [List.erase_cons]
    split_ifs with hc
    · rw [beq_iff_eq] at hc
      rw [List.flatMap_cons, hc, hb, List.nil_append]
    · rw [List.flatMap_cons, List.flatMap_cons, ih]

theorem items_concat_empty (hb : f b = []) :
    items (bins ++ [b]) f loose = items bins f loose := by
  simp [items, hb]

theorem bin_unique (hn : (items bins f loose).Nodup) (hb : b ∈ bins) (hc : c ∈ bins)
    (hxb : x ∈ f b) (hxc : x ∈ f c) : b = c := by
  by_contra hne
  have hpair := (List.nodup_flatMap.mp (List.nodup_append.mp hn).1).2
  have hsymm : Std.Symm (Function.onFun List.Disjoint f) := ⟨fun _ _ h => List.disjoint_symm h⟩
  exact hpair.forall hb hc hne hxb hxc

theorem notMem_loose (hn : (items bins f loose).Nodup) (hb : b ∈ bins) (hx : x ∈ f b) :
    x ∉ loose := fun hl =>
  (List.nodup_append.mp hn).2.2 x (List.mem_flatMap.mpr ⟨b, hb, hx⟩) x hl rfl

theorem nodup_bin (hn : (items bins f loose).Nodup) (hb : b ∈ bins) : (f b).Nodup :=
  (List.nodup_flatMap.mp (List.nodup_append.mp hn).1).1 b hb

theorem nodup_loose (hn : (items bins f loose).Nodup) : loose.Nodup :=
  (List.nodup_append.mp hn).2.1

end Medit.Bins
