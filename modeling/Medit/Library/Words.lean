import Mathlib.Data.List.DropRight
import Mathlib.Data.List.TakeWhile

/-!
# Words

A text that is cut at separators, with the blanks around each piece taken off and empty pieces left
out.

## Main definitions

* `Words.strip` — a piece without the blanks around it.
* `Words.words` — the words of a text.

## Main results

* `Words.words_intercalate` — words that are joined are the words of the text.
-/

namespace Words

variable {α : Type*} (sep blank : α → Bool)

def strip (s : List α) : List α := (s.dropWhile blank).rdropWhile blank

def words (t : List α) : List (List α) := ((t.splitOnP sep).map (strip blank)).filter (· ≠ [])

/-- A piece that is a word as it is. -/
structure IsWord (w : List α) : Prop where
  ne_nil : w ≠ []
  not_sep : ∀ c ∈ w, sep c = false
  strip : strip blank w = w

variable {sep blank}

theorem strip_strip (s : List α) : strip blank (strip blank s) = strip blank s := by
  have hself : (strip blank s).dropWhile blank = strip blank s := by
    obtain ⟨behind, hbehind⟩ : strip blank s <+: s.dropWhile blank :=
      List.rdropWhile_prefix blank (s.dropWhile blank)
    cases hs : strip blank s with
    | nil => rfl
    | cons c rest =>
      have hc := List.head?_dropWhile_not blank s
      rw [← hbehind, hs] at hc
      exact List.dropWhile_cons_of_neg (by simpa using hc)
  rw [strip, hself, strip, List.rdropWhile_idempotent]

/-- No blank is at either end. -/
theorem strip_eq_self {s : List α} :
    strip blank s = s ↔ s.dropWhile blank = s ∧ s.rdropWhile blank = s := by
  refine ⟨fun h => ?_, fun ⟨hfront, hback⟩ => by rw [strip, hfront, hback]⟩
  have hlength : s.length ≤ (s.dropWhile blank).length := by
    have hle := (List.rdropWhile_prefix blank (s.dropWhile blank)).length_le
    rwa [← strip, h] at hle
  have hfront : s.dropWhile blank = s := (List.dropWhile_suffix blank).eq_of_length_le hlength
  rw [strip, hfront] at h
  exact ⟨hfront, h⟩

theorem rdropWhile_append_of_pos {s t : List α} (h : ∀ c ∈ t, blank c = true) :
    (s ++ t).rdropWhile blank = s.rdropWhile blank := by
  rw [List.rdropWhile, List.reverse_append, List.dropWhile_append_of_pos (by simpa using h),
    ← List.rdropWhile]

theorem strip_eq_nil {s : List α} : strip blank s = [] ↔ ∀ c ∈ s, blank c = true := by
  rw [strip, List.rdropWhile_eq_nil_iff]
  refine ⟨fun h c hc => ?_, fun h c hc => h c ((List.dropWhile_sublist _).subset hc)⟩
  rw [← List.takeWhile_append_dropWhile (p := blank) (l := s)] at hc
  rcases List.mem_append.1 hc with hc | hc
  · exact List.mem_takeWhile_imp hc
  · exact h c hc

/-- The blanks around what is left. -/
theorem exists_strip (blank : α → Bool) (s : List α) : ∃ a c : List α,
    (∀ x ∈ a ++ c, blank x = true) ∧ s = a ++ strip blank s ++ c := by
  refine ⟨s.takeWhile blank, (s.dropWhile blank).rtakeWhile blank, fun x hx => ?_, ?_⟩
  · rcases List.mem_append.1 hx with hx | hx
    · exact List.mem_takeWhile_imp hx
    · exact List.mem_rtakeWhile_imp hx
  · have hback : (s.dropWhile blank).rdropWhile blank ++ (s.dropWhile blank).rtakeWhile blank =
        s.dropWhile blank := List.rdropWhile_append_rtakeWhile ..
    rw [strip, List.append_assoc, hback, List.takeWhile_append_dropWhile]

/-- Only the front of a text that is not blank is stripped at the front. -/
theorem dropWhile_append_of_strip {s : List α} (h : strip blank s ≠ []) (t : List α) :
    (s ++ t).dropWhile blank = s.dropWhile blank ++ t := by
  have hne : s.dropWhile blank ≠ [] := by
    rintro hnil
    simp [strip, hnil] at h
  rw [List.dropWhile_append, if_neg (by simpa using hne)]

theorem rdropWhile_append_of_strip {s : List α} (h : strip blank s ≠ []) (t : List α) :
    (t ++ s).rdropWhile blank = t ++ s.rdropWhile blank := by
  have hne : s.reverse.dropWhile blank ≠ [] := by
    intro hnil
    refine h (strip_eq_nil.2 fun c hc => ?_)
    exact List.dropWhile_eq_nil_iff.1 hnil c (List.mem_reverse.2 hc)
  rw [List.rdropWhile, List.reverse_append, List.dropWhile_append, if_neg (by simpa using hne),
    List.reverse_append, List.reverse_reverse, ← List.rdropWhile]

theorem strip_append {a s c : List α} (h : ∀ x ∈ a ++ c, blank x = true) :
    strip blank (a ++ s ++ c) = strip blank s := by
  obtain ⟨ha, hc⟩ := List.forall_mem_append.1 h
  by_cases hs : strip blank s = []
  · rw [hs, strip_eq_nil]
    have hs := strip_eq_nil.1 hs
    intro x hx
    simp only [List.mem_append] at hx
    obtain (hx | hx) | hx := hx
    · exact ha x hx
    · exact hs x hx
    · exact hc x hx
  · rw [strip, List.append_assoc, List.dropWhile_append_of_pos ha, dropWhile_append_of_strip hs,
      rdropWhile_append_of_pos hc, ← strip]

theorem strip_rdropWhile (s : List α) : strip blank (s.rdropWhile blank) = strip blank s := by
  have hback : s.rdropWhile blank ++ s.rtakeWhile blank = s := List.rdropWhile_append_rtakeWhile ..
  have hstrip : strip blank ([] ++ s.rdropWhile blank ++ s.rtakeWhile blank) =
      strip blank (s.rdropWhile blank) :=
    strip_append fun x hx => List.mem_rtakeWhile_imp (by simpa using hx)
  rw [← hstrip, List.nil_append, hback]

theorem strip_dropWhile (s : List α) : strip blank (s.dropWhile blank) = strip blank s := by
  rw [strip, List.dropWhile_idempotent, strip]

/-- No blank is left at the back. -/
theorem not_blank_of_strip_eq {s u v : List α} (h : strip blank s = u ++ v) (hv : v ≠ []) :
    strip blank v ≠ [] := by
  intro hnil
  have hself : (strip blank s).rdropWhile blank = strip blank s := List.rdropWhile_idempotent ..
  have hle := (List.rdropWhile_prefix blank u).length_le
  have hlength := congrArg List.length hself
  rw [h, rdropWhile_append_of_pos (strip_eq_nil.1 hnil), List.length_append] at hlength
  have := List.length_pos_iff.2 hv
  omega

theorem not_sep_of_mem_splitOnP {t piece : List α} (h : piece ∈ t.splitOnP sep) :
    ∀ c ∈ piece, sep c = false := by
  induction t generalizing piece with
  | nil =>
    rw [List.splitOnP_nil, List.mem_singleton] at h
    simp [h]
  | cons a t ih =>
    rw [List.splitOnP_cons_eq_if_modifyHead] at h
    split_ifs at h with ha
    · rcases List.mem_cons.1 h with rfl | h
      · exact nofun
      · exact ih h
    · obtain ⟨first, rest, hl⟩ := List.exists_cons_of_ne_nil (List.splitOnP_ne_nil sep t)
      rw [hl, List.modifyHead_cons] at h
      rw [hl] at ih
      rcases List.mem_cons.1 h with rfl | h
      · exact List.forall_mem_cons.2 ⟨by simpa using ha, ih List.mem_cons_self⟩
      · exact ih (List.mem_cons_of_mem _ h)

/-- Blanks in front of a text change only what is around a piece. -/
theorem map_strip_splitOnP_append_left {a : List α} (ha : ∀ x ∈ a, blank x = true ∧ sep x = false)
    (t : List α) :
    ((a ++ t).splitOnP sep).map (strip blank) = (t.splitOnP sep).map (strip blank) := by
  induction a with
  | nil => rfl
  | cons x a ih =>
    obtain ⟨⟨hblank, hsep⟩, ha⟩ := List.forall_mem_cons.1 ha
    rw [List.cons_append, List.splitOnP_cons_eq_if_modifyHead, hsep, if_neg (by simp), ← ih ha]
    obtain ⟨first, rest, hl⟩ := List.exists_cons_of_ne_nil (List.splitOnP_ne_nil sep (a ++ t))
    rw [hl, List.modifyHead_cons, List.map_cons, List.map_cons, strip,
      List.dropWhile_cons_of_pos hblank, ← strip]

theorem rdropWhile_cons_congr {v w : List α} (h : v.rdropWhile blank = w.rdropWhile blank) (x : α) :
    (x :: v).rdropWhile blank = (x :: w).rdropWhile blank := by
  have h : v.reverse.dropWhile blank = w.reverse.dropWhile blank := List.reverse_injective h
  rw [List.rdropWhile, List.rdropWhile, List.reverse_cons, List.reverse_cons, List.dropWhile_append,
    List.dropWhile_append, h]

theorem map_rdropWhile_splitOnP_append {c : List α} (hc : ∀ x ∈ c, blank x = true ∧ sep x = false)
    (t : List α) :
    ((t ++ c).splitOnP sep).map (·.rdropWhile blank) =
      (t.splitOnP sep).map (·.rdropWhile blank) := by
  induction t with
  | nil =>
    have hnil : c.rdropWhile blank = [] := List.rdropWhile_eq_nil_iff.2 fun x hx => (hc x hx).1
    rw [List.nil_append, List.splitOnP_eq_singleton fun x hx => (hc x hx).2, List.splitOnP_nil]
    simp [hnil]
  | cons x t ih =>
    rw [List.cons_append, List.splitOnP_cons_eq_if_modifyHead, List.splitOnP_cons_eq_if_modifyHead]
    split
    · rw [List.map_cons, ih, List.map_cons]
    · obtain ⟨v, l, hv⟩ := List.exists_cons_of_ne_nil (List.splitOnP_ne_nil sep (t ++ c))
      obtain ⟨w, m, hw⟩ := List.exists_cons_of_ne_nil (List.splitOnP_ne_nil sep t)
      rw [hv, hw, List.map_cons, List.map_cons, List.cons.injEq] at ih
      rw [hv, hw, List.modifyHead_cons, List.modifyHead_cons, List.map_cons, List.map_cons,
        rdropWhile_cons_congr ih.1, ih.2]

/-- The pieces of a text that is stripped first, without the blanks around each of them. -/
theorem map_strip_splitOnP_strip (h : ∀ x, blank x = true → sep x = false) (t : List α) :
    ((strip blank t).splitOnP sep).map (strip blank) = (t.splitOnP sep).map (strip blank) := by
  obtain ⟨a, c, hblank, ht⟩ := exists_strip blank t
  obtain ⟨ha, hc⟩ := List.forall_mem_append.1 hblank
  have hback := map_rdropWhile_splitOnP_append (fun x hx => ⟨hc x hx, h x (hc x hx)⟩)
    (a ++ strip blank t)
  have hstrip : strip blank ∘ (·.rdropWhile blank) = strip blank := funext strip_rdropWhile
  have hmap := congrArg (List.map (strip blank)) hback
  rw [List.map_map, List.map_map, hstrip, ← ht,
    map_strip_splitOnP_append_left fun x hx => ⟨ha x hx, h x (ha x hx)⟩] at hmap
  exact hmap.symm

theorem isWord_of_mem_words {t w : List α} (h : w ∈ words sep blank t) : IsWord sep blank w := by
  obtain ⟨hw, hne⟩ := List.mem_filter.1 h
  obtain ⟨piece, hpiece, rfl⟩ := List.mem_map.1 hw
  refine ⟨by simpa using hne, fun c hc => ?_, strip_strip piece⟩
  refine not_sep_of_mem_splitOnP hpiece c ?_
  exact (List.dropWhile_sublist _).subset ((List.rdropWhile_prefix blank _).subset hc)

/-- Words that are joined are the words of the text. -/
theorem words_intercalate {d : α} (hd : sep d = true) {l : List (List α)}
    (h : ∀ w ∈ l, IsWord sep blank w) : words sep blank ([d].intercalate l) = l := by
  induction l with
  | nil => rfl
  | cons w l ih =>
    obtain ⟨hw, hl⟩ := List.forall_mem_cons.1 h
    have hne : strip blank w ≠ [] := hw.strip.symm ▸ hw.ne_nil
    cases l with
    | nil =>
      rw [List.intercalate_singleton, words, List.splitOnP_eq_singleton hw.not_sep]
      simp [hw.strip, hw.ne_nil]
    | cons w' l =>
      rw [List.intercalate_cons_cons, List.append_assoc, List.singleton_append, words,
        List.splitOnP_append_cons_of_forall_mem hw.not_sep d hd, List.map_cons,
        List.filter_cons_of_pos (by simpa using hne), hw.strip, ← words, ih hl]

end Words
