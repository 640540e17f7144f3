import Mathlib.Data.List.TakeWhile
import Mathlib.Order.Nat
import Medit.Library.Intervals

/-!
# Text regions

Models `gtktextregion.c`: a list of subregions of a text, kept by marks, with the marks at their
places. The nodes of the list are known by their places in it. The subregions come one after another
and stand for the set of their characters. Adding and subtracting a range are union and difference,
the intersection with a range is the intersection.

## Main definitions

* `findNearestSubregion` — `find_nearest_subregion`.
* `add`, `subtract`, `intersect` — the functions of these names.
* `insertText`, `deleteText` — what becomes of the marks when the text is edited.
* `Near` — the subregions before, near and after a range, and the nodes that are found for it.

## Main results

* `mem_add`, `mem_subtract`, `mem_intersect` — the characters of a region after each function.
* `sorted_add`, `sorted_subtract`, `sorted_insertText`, `sorted_deleteText`.
-/

namespace Medit.TextRegion

open Intervals

/-- `Subregion`, with the places of its marks. -/
abbrev Subregion := Stretch ℕ

/-- `gtk_text_iter_in_range`. -/
def inRange (iter : ℕ) (sr : Subregion) : Bool := sr.start ≤ iter && iter < sr.stop

/-- The node before a node. -/
def prevNode : ℕ → Option ℕ
  | 0 => none
  | i + 1 => some i

/-- What the loop of `find_nearest_subregion` stops at on the right side. -/
def isRight (iter : ℕ) (includeEdges : Bool) (sr : Subregion) : Bool :=
  iter < sr.stop || (iter == sr.stop && includeEdges)

/-- What it goes on over on the left side. -/
def isLeft (iter : ℕ) (includeEdges : Bool) (sr : Subregion) : Bool :=
  sr.start < iter || (iter == sr.start && includeEdges)

/-- `find_nearest_subregion`. -/
def findNearestSubregion (region : List Subregion) (iter : ℕ) (first : Option ℕ)
    (leftmost includeEdges : Bool) : Option ℕ :=
  let first := first.getD 0
  if leftmost then
    prevNode (first + ((region.drop first).takeWhile (isLeft iter includeEdges)).length)
  else
    match (region.drop first).findIdx? (isRight iter includeEdges) with
    | some i => some (first + i)
    | none => prevNode first

/-- The subregion of a node. -/
def nodeAt (region : List Subregion) (i : ℕ) : Subregion := region.getD i ⟨0, 0⟩

/-- `gtk_text_region_add`, for ends in order. -/
def addRange (region : List Subregion) (start stop : ℕ) : List Subregion :=
  if start = stop then region
  else
    let startNode := findNearestSubregion region start none false true
    let endNode := findNearestSubregion region stop startNode true true
    match startNode, endNode with
    | none, _ => region ++ [⟨start, stop⟩]
    | _, none => ⟨start, stop⟩ :: region
    | some i, some j =>
      if some j = prevNode i then region.take i ++ [⟨start, stop⟩] ++ region.drop i
      else
        let sr := nodeAt region i
        let srStop := if i ≠ j then (nodeAt region j).stop else sr.stop
        region.take i ++
          [⟨if sr.start > start then start else sr.start,
            if srStop < stop then stop else srStop⟩] ++
          region.drop (j + 1)

/-- `gtk_text_region_add`. -/
def add (region : List Subregion) (start stop : ℕ) : List Subregion :=
  addRange region (min start stop) (max start stop)

/-- `gtk_text_region_clear_zero_length_subregions`. -/
def clearZeroLength (region : List Subregion) : List Subregion :=
  region.filter fun sr => sr.start ≠ sr.stop

/-- The nodes from `i` to `j` in `gtk_text_region_subtract`, unless the first is split. -/
def subtractNodes (region : List Subregion) (start stop i j : ℕ) : List Subregion :=
  let startInside := inRange start (nodeAt region i) && start != (nodeAt region i).start
  let endInside := inRange stop (nodeAt region j) && stop != (nodeAt region j).stop
  clearZeroLength
    (region.take i ++ (if startInside then [⟨(nodeAt region i).start, start⟩] else []) ++
      (if endInside then [⟨stop, (nodeAt region j).stop⟩] else []) ++ region.drop (j + 1))

/-- `gtk_text_region_subtract`, for ends in order. -/
def subtractRange (region : List Subregion) (start stop : ℕ) : List Subregion :=
  let startNode := findNearestSubregion region start none false false
  let endNode := findNearestSubregion region stop startNode true false
  match startNode, endNode with
  | some i, some j =>
    if some j = prevNode i then region
    else
      let sr := nodeAt region i
      if inRange start sr && start != sr.start && (inRange stop sr && stop != sr.stop) then
        region.take i ++ [⟨sr.start, start⟩, ⟨stop, sr.stop⟩] ++ region.drop (i + 1)
      else subtractNodes region start stop i j
  | _, _ => region

/-- `gtk_text_region_subtract`. -/
def subtract (region : List Subregion) (start stop : ℕ) : List Subregion :=
  subtractRange region (min start stop) (max start stop)

/-- `gtk_text_region_intersect`, for ends in order. -/
def intersectRange (region : List Subregion) (start stop : ℕ) : Option (List Subregion) :=
  let startNode := findNearestSubregion region start none false false
  let endNode := findNearestSubregion region stop startNode true false
  match startNode, endNode with
  | some i, some j =>
    if some j = prevNode i then none
    else
      let sr := nodeAt region i
      let last := nodeAt region j
      let lastStop := if inRange stop last then stop else last.stop
      if inRange start sr then
        if i = j then some [⟨start, lastStop⟩]
        else
          some (⟨start, sr.stop⟩ :: (region.drop (i + 1)).take (j - (i + 1)) ++
            [⟨last.start, lastStop⟩])
      else some ((region.drop i).take (j - i) ++ [⟨last.start, lastStop⟩])
  | _, _ => none

/-- `gtk_text_region_intersect`. -/
def intersect (region : List Subregion) (start stop : ℕ) : Option (List Subregion) :=
  intersectRange region (min start stop) (max start stop)

/-! ## Marks -/

/-- The marks when `n` characters are inserted: the start has left gravity, the end has not. -/
def insertText (region : List Subregion) (pos n : ℕ) : List Subregion :=
  region.map fun sr =>
    ⟨if pos < sr.start then sr.start + n else sr.start,
      if pos ≤ sr.stop then sr.stop + n else sr.stop⟩

/-- A place when the text from `start` to `stop` is deleted. -/
def placeAfterDelete (start stop x : ℕ) : ℕ :=
  if x ≤ start then x else if x ≤ stop then start else x - (stop - start)

/-- The marks when text is deleted. -/
def deleteText (region : List Subregion) (start stop : ℕ) : List Subregion :=
  region.map fun sr =>
    ⟨placeAfterDelete start stop sr.start, placeAfterDelete start stop sr.stop⟩

variable {region l m r : List Subregion} {a b x i j pos n : ℕ} {e : Bool} {s t : Subregion}

/-! ## The nodes of a range -/

theorem isRight_iff : isRight a e s = true ↔ a < s.stop ∨ a = s.stop ∧ e = true := by
  simp [isRight]

theorem isLeft_iff : isLeft b e s = true ↔ s.start < b ∨ b = s.start ∧ e = true := by
  simp [isLeft]

/-- The subregions before, near and after the range from `a` to `b`, and the nodes found for it. -/
structure Near (region : List Subregion) (a b : ℕ) (e : Bool) (l m r : List Subregion) : Prop where
  eq : region = l ++ m ++ r
  before : ∀ s ∈ l, isRight a e s = false
  right : ∀ s ∈ m, isRight a e s = true
  left : ∀ s ∈ m, isLeft b e s = true
  after : ∀ s ∈ r, isRight a e s = true ∧ isLeft b e s = false
  first : findNearestSubregion region a none false e = if m ++ r = [] then none else some l.length
  last : m ++ r ≠ [] →
    findNearestSubregion region b (some l.length) true e = prevNode (l.length + m.length)

theorem exists_near (h : Sorted region) (a b : ℕ) (e : Bool) :
    ∃ l m r, Near region a b e l m r := by
  have hsplit := List.takeWhile_append_dropWhile (p := fun s => !isRight a e s) (l := region)
  generalize hl : region.takeWhile (fun s => !isRight a e s) = l at hsplit
  generalize hrest : region.dropWhile (fun s => !isRight a e s) = rest at hsplit
  have hbefore : ∀ s ∈ l, isRight a e s = false := by
    intro s hs
    rw [← hl] at hs
    simpa using List.mem_takeWhile_imp hs
  have hright : ∀ s ∈ rest, isRight a e s = true := by
    rw [← hsplit, Sorted.append_iff] at h
    cases rest with
    | nil => simp
    | cons t rest =>
      have ht : isRight a e t = true := by
        have := List.head?_dropWhile_not (fun s => !isRight a e s) region
        simpa [hrest] using this
      obtain ⟨-, htail, hsort⟩ := Sorted.cons_iff.1 h.2.1
      intro s hs
      rcases List.mem_cons.1 hs with rfl | hs
      · exact ht
      · have hle : t.stop ≤ s.stop := (htail s hs).trans (hsort.1 s hs)
        rw [isRight_iff] at ht ⊢
        grind
  have hsplit' := List.takeWhile_append_dropWhile (p := isLeft b e) (l := rest)
  generalize hm : rest.takeWhile (isLeft b e) = m at hsplit'
  generalize hr : rest.dropWhile (isLeft b e) = r at hsplit'
  have hafter : ∀ s ∈ r, isLeft b e s = false := by
    have hsort : Sorted r := h.sublist <| by
      rw [← hsplit, ← hsplit', ← List.append_assoc]
      exact List.sublist_append_right _ _
    cases r with
    | nil => simp
    | cons t r =>
      have ht : isLeft b e t = false := by
        have := List.head?_dropWhile_not (isLeft b e) rest
        simpa [hr] using this
      obtain ⟨hts, htail, -⟩ := Sorted.cons_iff.1 hsort
      intro s hs
      rcases List.mem_cons.1 hs with rfl | hs
      · exact ht
      · have hle : t.start ≤ s.start := hts.trans (htail s hs)
        rw [Bool.eq_false_iff, ne_eq, isLeft_iff] at ht ⊢
        grind
  refine ⟨l, m, r, ⟨?_, hbefore, ?_, ?_, ?_, ?_, ?_⟩⟩
  · rw [List.append_assoc, hsplit', hsplit]
  · intro s hs
    exact hright s (hsplit' ▸ List.mem_append_left _ hs)
  · intro s hs
    rw [← hm] at hs
    exact List.mem_takeWhile_imp hs
  · intro s hs
    exact ⟨hright s (hsplit' ▸ List.mem_append_right _ hs), hafter s hs⟩
  · rw [hsplit']
    have hnone : l.findIdx? (isRight a e) = none := List.findIdx?_eq_none_iff.2 hbefore
    have hfirst : region.findIdx? (isRight a e) = if rest = [] then none else some l.length := by
      rw [← hsplit, List.findIdx?_append, hnone]
      cases rest with
      | nil => rfl
      | cons t rest => simp [List.findIdx?_cons, hright t List.mem_cons_self]
    simp only [findNearestSubregion, Option.getD_none, List.drop_zero, hfirst]
    by_cases hnil : rest = [] <;> simp [hnil, prevNode]
  · intro _
    have hdrop : region.drop l.length = rest := by rw [← hsplit, List.drop_left]
    simp only [findNearestSubregion, Option.getD_some, hdrop, hm, if_true]

/-- The nodes found for a range that is near some subregions. -/
theorem Near.nodes (h : Near region a b e l m r) (hm : m ≠ []) {first last : Subregion}
    (hfirst : m.head? = some first) (hlast : m.getLast? = some last) :
    findNearestSubregion region a none false e = some l.length ∧
      findNearestSubregion region b (some l.length) true e = some (l.length + (m.length - 1)) ∧
      some (l.length + (m.length - 1)) ≠ prevNode l.length ∧
      nodeAt region l.length = first ∧ nodeAt region (l.length + (m.length - 1)) = last ∧
      region.take l.length = l ∧ region.drop (l.length + (m.length - 1) + 1) = r := by
  have hpos : 0 < m.length := List.length_pos_iff.2 hm
  have hnil : m ++ r ≠ [] := by simp [hm]
  obtain ⟨k, hk⟩ : ∃ k, m.length = k + 1 := ⟨m.length - 1, by omega⟩
  refine ⟨by rw [h.first, if_neg hnil], ?_, ?_, ?_, ?_, ?_, ?_⟩
  · rw [h.last hnil, hk]
    rfl
  · cases hl : l.length with
    | zero => simp [prevNode]
    | succ n =>
      simp only [prevNode, ne_eq, Option.some.injEq]
      omega
  · have hget : m[0]? = some first := by rw [← hfirst, List.head?_eq_getElem?]
    rw [nodeAt, h.eq, List.append_assoc]
    simp [List.getD, List.getElem?_append_right, List.getElem?_append_left hpos, hget]
  · have hget : m[m.length - 1]? = some last := by rw [← hlast, List.getLast?_eq_getElem?]
    have hlt : m.length - 1 < m.length := by omega
    rw [nodeAt, h.eq, List.append_assoc]
    simp [List.getD, List.getElem?_append_right, List.getElem?_append_left hlt, hget]
  · rw [h.eq, List.append_assoc, List.take_left]
  · have hlen : l.length + (m.length - 1) + 1 = (l ++ m).length := by simp; omega
    rw [hlen, h.eq, List.drop_left]

/-- The nodes found for a range that is near no subregion. -/
theorem Near.nodes_nil (h : Near region a b e l [] r) :
    (r = [] ∧ findNearestSubregion region a none false e = none) ∨
      (findNearestSubregion region a none false e = some l.length ∧
        findNearestSubregion region b (some l.length) true e = prevNode l.length) := by
  by_cases hr : r = []
  · exact .inl ⟨hr, by rw [h.first, if_pos (by simpa using hr)]⟩
  · have hnil : [] ++ r ≠ [] := by simpa using hr
    exact .inr ⟨by rw [h.first, if_neg hnil], by rw [h.last hnil, List.length_nil, Nat.add_zero]⟩

/-! ## Adding -/

theorem Near.addRange_nil (h : Near region a b true l [] r) (hab : a ≠ b) :
    addRange region a b = l ++ [⟨a, b⟩] ++ r := by
  have heq : region = l ++ r := by simpa using h.eq
  unfold addRange
  rw [if_neg hab]
  rcases h.nodes_nil with ⟨rfl, hfirst⟩ | ⟨hfirst, hlast⟩
  · simp only [hfirst, List.append_nil]
    rw [heq, List.append_nil]
  · simp only [hfirst, hlast]
    cases l with
    | nil => simp [prevNode, heq]
    | cons s l =>
      simp only [List.length_cons, prevNode, if_true, heq]
      simp

theorem Near.addRange_cons (h : Near region a b true l m r) (hab : a ≠ b) (hm : m ≠ [])
    {first last : Subregion} (hfirst : m.head? = some first) (hlast : m.getLast? = some last) :
    addRange region a b = l ++ [⟨if first.start > a then a else first.start,
      if last.stop < b then b else last.stop⟩] ++ r := by
  obtain ⟨h₁, h₂, h₃, h₄, h₅, h₆, h₇⟩ := h.nodes hm hfirst hlast
  have hstop : (if l.length ≠ l.length + (m.length - 1) then last.stop else first.stop) =
      last.stop := by
    split_ifs with hne
    · rfl
    · have hone : m.length = 1 := by
        have := List.length_pos_iff.2 hm
        omega
      obtain ⟨s, rfl⟩ := List.length_eq_one_iff.1 hone
      obtain rfl : s = first := by simpa using hfirst
      obtain rfl : s = last := by simpa using hlast
      rfl
  unfold addRange
  rw [if_neg hab]
  simp only [h₁, h₂, if_neg h₃, h₄, h₅, h₆, h₇, hstop]

theorem addRange_spec (h : Sorted region) (hab : a ≤ b) :
    Sorted (addRange region a b) ∧
      ∀ x, x ∈ points (addRange region a b) ↔ x ∈ points region ∨ a ≤ x ∧ x < b := by
  by_cases heq : a = b
  · subst heq
    simp only [addRange, if_true]
    exact ⟨h, fun x => by constructor <;> intro hx <;> grind⟩
  obtain ⟨l, m, r, hnear⟩ := exists_near h a b true
  have hbefore : ∀ s ∈ l, s.stop < a := fun s hs => by
    have := hnear.before s hs
    rw [Bool.eq_false_iff, ne_eq, isRight_iff] at this
    grind
  have hafter : ∀ s ∈ r, b < s.start := fun s hs => by
    have := (hnear.after s hs).2
    rw [Bool.eq_false_iff, ne_eq, isLeft_iff] at this
    grind
  have hmid : ∀ s ∈ m, a ≤ s.stop ∧ s.start ≤ b := fun s hs => by
    have hr := hnear.right s hs
    have hl := hnear.left s hs
    rw [isRight_iff] at hr
    rw [isLeft_iff] at hl
    grind
  rcases eq_or_ne m [] with rfl | hm
  · rw [hnear.addRange_nil heq]
    have hreg : region = l ++ r := by simpa using hnear.eq
    rw [hreg] at h ⊢
    obtain ⟨hl, hr, -⟩ := Sorted.append_iff.1 h
    refine ⟨?_, fun x => ?_⟩
    · rw [Sorted.append_iff, Sorted.append_iff]
      refine ⟨⟨hl, .singleton hab, ?_⟩, hr, ?_⟩
      · rintro s hs t ht
        obtain rfl := List.mem_singleton.1 ht
        exact (hbefore s hs).le
      · rintro s hs t ht
        rcases List.mem_append.1 hs with hs | hs
        · exact (hbefore s hs).le.trans (hab.trans (hafter t ht).le)
        · obtain rfl := List.mem_singleton.1 hs
          exact (hafter t ht).le
    · simp only [mem_points_append, mem_points_cons, mem_points_nil, mem_def]
      tauto
  · have hcut := hnear.eq ▸ h
    obtain ⟨first, last, hfirst, hlast, hlf, hrl, hfl, hall⟩ := hcut.cut hm
    rw [hnear.addRange_cons heq hm hfirst hlast]
    have hfmem : first ∈ m := List.mem_of_mem_head? hfirst
    have hlmem : last ∈ m := List.mem_of_getLast? hlast
    obtain ⟨hlm, hr, -⟩ := Sorted.append_iff.1 hcut
    obtain ⟨hl, -, -⟩ := Sorted.append_iff.1 hlm
    refine ⟨?_, fun x => ?_⟩
    · rw [Sorted.append_iff, Sorted.append_iff]
      refine ⟨⟨hl, .singleton ?_, ?_⟩, hr, ?_⟩
      · dsimp only
        split_ifs <;> omega
      · rintro s hs t ht
        obtain rfl := List.mem_singleton.1 ht
        have h₁ := hbefore s hs
        have h₂ := hlf s hs
        dsimp only
        split_ifs <;> omega
      · rintro s hs t ht
        have h₁ := hafter t ht
        have h₂ := hrl t ht
        rcases List.mem_append.1 hs with hs | hs
        · have h₃ := hbefore s hs
          omega
        · obtain rfl := List.mem_singleton.1 hs
          dsimp only
          split_ifs <;> omega
    · have hhull := points_hull (x := x) hmid
        (if first.start > a then a else first.start)
        (if last.stop < b then b else last.stop)
        (by split_ifs; exacts [.inl rfl, .inr ⟨first, hfmem, rfl⟩]) (by split_ifs <;> omega)
        (by split_ifs; exacts [.inl rfl, .inr ⟨last, hlmem, rfl⟩]) (by split_ifs <;> omega)
        (fun s hs => by have := hall s hs; constructor <;> split_ifs <;> omega)
      rw [hnear.eq]
      simp only [mem_points_append, mem_points_cons, mem_points_nil, hhull, mem_def]
      tauto

/-! ## Subtracting -/

theorem mem_points_clearZeroLength : x ∈ points (clearZeroLength region) ↔ x ∈ points region := by
  simp only [mem_points, clearZeroLength, List.mem_filter, decide_eq_true_eq]
  constructor
  · rintro ⟨s, ⟨hs, -⟩, hx⟩
    exact ⟨s, hs, hx⟩
  · rintro ⟨s, hs, hx, hx'⟩
    exact ⟨s, ⟨hs, by omega⟩, hx, hx'⟩

/-- Subregions that stop before a range or start after it. -/
theorem Near.disjoint (h : Near region a b false l m r) :
    (∀ s ∈ l, s.stop ≤ a) ∧ (∀ s ∈ m, a < s.stop ∧ s.start < b) ∧ ∀ s ∈ r, b ≤ s.start := by
  refine ⟨fun s hs => ?_, fun s hs => ?_, fun s hs => ?_⟩
  · have := h.before s hs
    rw [Bool.eq_false_iff, ne_eq, isRight_iff] at this
    grind
  · have hr := h.right s hs
    have hl := h.left s hs
    rw [isRight_iff] at hr
    rw [isLeft_iff] at hl
    grind
  · have := (h.after s hs).2
    rw [Bool.eq_false_iff, ne_eq, isLeft_iff] at this
    grind

/-- The first and the last of the near subregions, as the code tests them. -/
theorem Near.inside (h : Near region a b false l m r) {first last : Subregion}
    (hfirst : m.head? = some first) (hlast : m.getLast? = some last) :
    (inRange a first = decide (first.start ≤ a)) ∧ (inRange b last = decide (b < last.stop)) := by
  have h₁ := (h.disjoint.2.1 first (List.mem_of_mem_head? hfirst)).1
  have h₂ := (h.disjoint.2.1 last (List.mem_of_getLast? hlast)).2
  simp [inRange, h₁, h₂.le]

theorem Near.subtractRange_nil (h : Near region a b false l [] r) :
    subtractRange region a b = region := by
  unfold subtractRange
  rcases h.nodes_nil with ⟨-, hfirst⟩ | ⟨hfirst, hlast⟩
  · simp only [hfirst]
  · simp only [hfirst, hlast]
    cases hl : prevNode l.length with
    | none => rfl
    | some j => simp [hl]

/-- Nothing but the first subregion is near a range that stops in it. -/
theorem Near.eq_singleton (h : Near region a b false l m r) (hs : Sorted m) {first : Subregion}
    (hfirst : m.head? = some first) (hb : b ≤ first.stop) : m = [first] := by
  cases m with
  | nil => simp at hfirst
  | cons s rest =>
    obtain rfl : s = first := by simpa using hfirst
    cases rest with
    | nil => rfl
    | cons t rest =>
      have hst := (Sorted.cons_iff.1 hs).2.1 t List.mem_cons_self
      have htb := (h.disjoint.2.1 t (by simp)).2
      omega

/-- The first subregion is split, or else it loses its end and the last one its start. -/
theorem Near.subtractRange_cons (h : Near region a b false l m r) (hs : Sorted m) (hm : m ≠ [])
    {first last : Subregion} (hfirst : m.head? = some first) (hlast : m.getLast? = some last) :
    (m = [first] ∧ first.start < a ∧ b < first.stop ∧
      subtractRange region a b = l ++ [⟨first.start, a⟩, ⟨b, first.stop⟩] ++ r) ∨
    subtractRange region a b =
      clearZeroLength (l ++ (if first.start < a then [⟨first.start, a⟩] else []) ++
        (if b < last.stop then [⟨b, last.stop⟩] else []) ++ r) := by
  obtain ⟨h₁, h₂, h₃, h₄, h₅, h₆, h₇⟩ := h.nodes hm hfirst hlast
  obtain ⟨ha, hb⟩ := h.inside hfirst hlast
  have hstart : (inRange a first && a != first.start) = decide (first.start < a) := by
    rw [ha, Bool.eq_iff_iff]
    simp
    omega
  have hstop : (inRange b last && b != last.stop) = decide (b < last.stop) := by
    rw [hb, Bool.eq_iff_iff]
    simp
    omega
  unfold subtractRange
  simp only [h₁, h₂, if_neg h₃, h₄, hstart]
  by_cases hsplit : (decide (first.start < a) && (inRange b first && b != first.stop)) = true
  · rw [if_pos hsplit]
    simp only [Bool.and_eq_true, decide_eq_true_eq, inRange] at hsplit
    obtain ⟨hlt, ⟨-, hlt'⟩, -⟩ := hsplit
    obtain rfl := h.eq_singleton hs hfirst hlt'.le
    refine .inl ⟨rfl, hlt, hlt', ?_⟩
    simpa [h₆] using h₇
  · rw [if_neg hsplit]
    refine .inr ?_
    unfold subtractNodes
    simp only [h₄, h₅, h₆, h₇, hstart, hstop, decide_eq_true_eq]

theorem subtractRange_spec (h : Sorted region) (hab : a ≤ b) :
    Sorted (subtractRange region a b) ∧
      ∀ x, x ∈ points (subtractRange region a b) ↔ x ∈ points region ∧ ¬(a ≤ x ∧ x < b) := by
  obtain ⟨l, m, r, hnear⟩ := exists_near h a b false
  obtain ⟨hbefore, hmid, hafter⟩ := hnear.disjoint
  have hl (x : ℕ) : x ∈ points l → x < a := by
    rintro ⟨s, hs, -, hx⟩
    exact hx.trans_le (hbefore s hs)
  have hr (x : ℕ) : x ∈ points r → b ≤ x := by
    rintro ⟨s, hs, hx, -⟩
    exact (hafter s hs).trans hx
  rcases eq_or_ne m [] with rfl | hm
  · rw [hnear.subtractRange_nil]
    refine ⟨h, fun x => ?_⟩
    have hl := hl x
    have hr := hr x
    rw [hnear.eq, List.append_nil, mem_points_append]
    constructor
    · intro hx
      exact ⟨hx, by rcases hx with hx | hx <;> grind⟩
    · exact And.left
  have hcut := hnear.eq ▸ h
  obtain ⟨first, last, hfirst, hlast, hlf, hrl, hfl, hall⟩ := hcut.cut hm
  obtain ⟨hlm, hr', -⟩ := Sorted.append_iff.1 hcut
  obtain ⟨hl', hm', -⟩ := Sorted.append_iff.1 hlm
  have hlt (x : ℕ) := hm'.mem_points_lt (x := x) (fun s hs => (hmid s hs).1) hfirst
  have hge (x : ℕ) := hm'.mem_points_ge (x := x) (fun s hs => (hmid s hs).2) hlast
  generalize hp : (if first.start < a then [(⟨first.start, a⟩ : Subregion)] else []) = p
  generalize hq : (if b < last.stop then [(⟨b, last.stop⟩ : Subregion)] else []) = q
  have hpmem : ∀ s ∈ p, s = ⟨first.start, a⟩ ∧ first.start < a := by
    intro s hs
    rw [← hp] at hs
    split_ifs at hs with hlt
    · exact ⟨List.mem_singleton.1 hs, hlt⟩
    · simp at hs
  have hqmem : ∀ s ∈ q, s = ⟨b, last.stop⟩ ∧ b < last.stop := by
    intro s hs
    rw [← hq] at hs
    split_ifs at hs with hlt
    · exact ⟨List.mem_singleton.1 hs, hlt⟩
    · simp at hs
  have hsorted : Sorted (l ++ p ++ q ++ r) := by
    simp only [Sorted.append_iff]
    refine ⟨⟨⟨hl', ?_, fun s hs t ht => ?_⟩, ?_, fun s hs t ht => ?_⟩, hr', fun s hs t ht => ?_⟩
    · rw [← hp]
      split_ifs with hlt
      · exact .singleton hlt.le
      · exact .nil
    · rw [(hpmem t ht).1]
      exact hlf s hs
    · rw [← hq]
      split_ifs with hlt
      · exact .singleton hlt.le
      · exact .nil
    · rw [(hqmem t ht).1]
      rcases List.mem_append.1 hs with hs | hs
      · exact (hbefore s hs).trans hab
      · rw [(hpmem s hs).1]
        exact hab
    · rcases List.mem_append.1 hs with hs | hs
      · rcases List.mem_append.1 hs with hs | hs
        · exact (hbefore s hs).trans (hab.trans (hafter t ht))
        · rw [(hpmem s hs).1]
          exact hab.trans (hafter t ht)
      · rw [(hqmem s hs).1]
        exact hrl t ht
  have hp' (x : ℕ) : x ∈ points p ↔ x ∈ points m ∧ x < a := by
    rw [hlt x, ← hp]
    split_ifs with hlt
    · simp [mem_def]
    · simp only [mem_points_nil, false_iff, not_and]
      omega
  have hq' (x : ℕ) : x ∈ points q ↔ x ∈ points m ∧ b ≤ x := by
    rw [hge x, ← hq]
    split_ifs with hlt
    · simp [mem_def]
    · simp only [mem_points_nil, false_iff, not_and]
      omega
  have hpoints (x : ℕ) : x ∈ points (l ++ p ++ q ++ r) ↔
      x ∈ points region ∧ ¬(a ≤ x ∧ x < b) := by
    have hl := hl x
    have hr := hr x
    simp only [hnear.eq, mem_points_append, hp' x, hq' x]
    grind
  rcases hnear.subtractRange_cons hm' hm hfirst hlast with ⟨rfl, hlta, hltb, heq⟩ | heq
  · obtain rfl : last = first := by simpa using hlast.symm
    rw [if_pos hlta] at hp
    rw [if_pos hltb] at hq
    have heq' : subtractRange region a b = l ++ p ++ q ++ r := by rw [heq, ← hp, ← hq]; simp
    rw [heq']
    exact ⟨hsorted, hpoints⟩
  · rw [hp, hq] at heq
    rw [heq]
    exact ⟨hsorted.sublist List.filter_sublist,
      fun x => mem_points_clearZeroLength.trans (hpoints x)⟩

/-! ## Intersecting -/

/-- The part of each near subregion in the range. -/
theorem Near.intersectRange (h : Near region a b false l m r) (hs : Sorted m) :
    intersectRange region a b = if m = [] then none else some (m.map (clip a b)) := by
  split_ifs with hm
  · subst hm
    unfold TextRegion.intersectRange
    rcases h.nodes_nil with ⟨-, hfirst⟩ | ⟨hfirst, hlast⟩
    · simp only [hfirst]
    · simp only [hfirst, hlast]
      cases hl : prevNode l.length with
      | none => rfl
      | some j => simp [hl]
  · have hfirst := List.head?_eq_some_head hm
    have hlast := List.getLast?_eq_some_getLast hm
    generalize m.head hm = first at hfirst
    generalize m.getLast hm = last at hlast
    obtain ⟨h₁, h₂, h₃, h₄, h₅, -, -⟩ := h.nodes hm hfirst hlast
    obtain ⟨ha, hb⟩ := h.inside hfirst hlast
    have hmid := h.disjoint.2.1
    have hstop : (if b < last.stop then b else last.stop) = min last.stop b := by
      rw [min_comm, min_def]
      split_ifs <;> omega
    unfold TextRegion.intersectRange
    simp only [h₁, h₂, if_neg h₃, h₄, h₅, ha, hb, decide_eq_true_eq, hstop]
    have hdrop : region.drop l.length = m ++ r := by rw [h.eq, List.append_assoc, List.drop_left]
    have hdrop' : region.drop (l.length + 1) = (m ++ r).drop 1 := by
      rw [← List.drop_drop, hdrop]
    rw [hdrop, hdrop']
    obtain ⟨front, rfl⟩ := List.getLast?_eq_some_iff.1 hlast
    cases front with
    | nil =>
      obtain rfl : last = first := by simpa using hfirst
      by_cases hstart : last.start ≤ a
      · simp [hstart, clip]
      · simp [hstart, clip, le_of_not_ge hstart]
    | cons s mid =>
      obtain rfl : s = first := by simpa using hfirst
      obtain ⟨-, hrest, -⟩ := Sorted.cons_iff.1 hs
      obtain ⟨-, -, hfront⟩ := Sorted.append_iff.1 hs
      have hs' := (hmid s (by simp)).1
      have hl' := (hmid last (by simp)).2
      have hclip : ∀ t ∈ mid, clip a b t = t := by
        intro t ht
        have hst := hrest t (by simp [ht])
        have htl := hfront t (by simp [ht]) last (by simp)
        have := hs.1 last (by simp)
        rw [clip, max_eq_left (by omega), min_eq_left (by omega)]
      have hsl := hfront s (by simp) last (by simp)
      have hclips : clip a b s = ⟨max s.start a, s.stop⟩ := by
        rw [clip, min_eq_left (by omega)]
      have hclipl : clip a b last = ⟨last.start, min last.stop b⟩ := by
        rw [clip, max_eq_left (by omega)]
      have hmap : (s :: mid ++ [last]).map (clip a b) =
          ⟨max s.start a, s.stop⟩ :: mid ++ [⟨last.start, min last.stop b⟩] := by
        rw [List.map_append, List.map_cons, List.map_congr_left hclip, List.map_id',
          List.map_singleton, hclips, hclipl]
      have hlen : (s :: mid ++ [last]).length - 1 = mid.length + 1 := by simp
      rw [hmap, hlen]
      by_cases hstart : s.start ≤ a
      · have hcount : l.length + (mid.length + 1) - (l.length + 1) = mid.length := by omega
        have hne : l.length ≠ l.length + (mid.length + 1) := by omega
        rw [if_pos hstart, if_neg hne, max_eq_right hstart, hcount]
        simp
      · rw [if_neg hstart, max_eq_left (le_of_not_ge hstart), Nat.add_sub_cancel_left]
        simp

theorem intersectRange_spec (h : Sorted region) (a b : ℕ) :
    match intersectRange region a b with
    | none => ∀ x, ¬(x ∈ points region ∧ a ≤ x ∧ x < b)
    | some part => ∀ x, x ∈ points part ↔ x ∈ points region ∧ a ≤ x ∧ x < b := by
  obtain ⟨l, m, r, hnear⟩ := exists_near h a b false
  obtain ⟨hbefore, -, hafter⟩ := hnear.disjoint
  have hcut := hnear.eq ▸ h
  have hm := (Sorted.append_iff.1 (Sorted.append_iff.1 hcut).1).2.1
  have hpoints (x : ℕ) : x ∈ points region ∧ a ≤ x ∧ x < b ↔ x ∈ points m ∧ a ≤ x ∧ x < b := by
    refine and_congr_left fun hx => ?_
    rw [hnear.eq, mem_points_append, mem_points_append]
    constructor
    · rintro ((⟨s, hs, -, hxs⟩ | hxm) | ⟨s, hs, hxs, -⟩)
      · have := hbefore s hs
        omega
      · exact hxm
      · have := hafter s hs
        omega
    · exact fun hxm => .inl (.inr hxm)
  rw [hnear.intersectRange hm]
  split_ifs with hnil
  · intro x
    rw [hpoints x, hnil]
    simp
  · intro x
    rw [hpoints x]
    exact mem_points_clip

/-! ## Editing the text -/

/-- Two subregions touch at a place. -/
def TouchAt (region : List Subregion) (pos : ℕ) : Prop :=
  ¬ region.Pairwise fun s t => ¬(s.stop = pos ∧ t.start = pos)

/-- Inserted text belongs to the subregion that it is in or next to. -/
theorem insertText_spec (h : Sorted region) (htouch : ¬ TouchAt region pos) (n : ℕ) :
    Sorted (insertText region pos n) ∧
      ∀ x, x ∈ points (insertText region pos n) ↔
        if x < pos then x ∈ points region
        else if x < pos + n then ∃ s ∈ region, s.start ≤ pos ∧ pos ≤ s.stop
        else x - n ∈ points region := by
  have hone : ∀ s ∈ region, ∀ x, x ∈ (⟨if pos < s.start then s.start + n else s.start,
      if pos ≤ s.stop then s.stop + n else s.stop⟩ : Subregion) ↔
      if x < pos then x ∈ s
      else if x < pos + n then s.start ≤ pos ∧ pos ≤ s.stop
      else x - n ∈ s := by
    intro s hs x
    have := h.1 s hs
    simp only [mem_def]
    split_ifs <;> omega
  refine ⟨⟨?_, ?_⟩, fun x => ?_⟩
  · intro s' hs'
    obtain ⟨s, hs, rfl⟩ := List.mem_map.1 hs'
    have := h.1 s hs
    dsimp only
    split_ifs <;> omega
  · rw [insertText, List.pairwise_map]
    rw [TouchAt, not_not] at htouch
    refine (h.2.and htouch).imp_of_mem fun {s t} hs ht hst => ?_
    obtain ⟨hle, hne⟩ := hst
    have := h.1 s hs
    dsimp only
    split_ifs <;> omega
  · simp only [mem_points, insertText, List.mem_map, exists_exists_and_eq_and]
    constructor
    · rintro ⟨s, hs, hx⟩
      rw [hone s hs] at hx
      split_ifs at hx ⊢ <;> exact ⟨s, hs, hx⟩
    · intro hx
      split_ifs at hx with hlt hlt'
      all_goals
        obtain ⟨s, hs, hx⟩ := hx
        refine ⟨s, hs, (hone s hs x).2 ?_⟩
        simp [*]

theorem placeAfterDelete_mono {start stop x y : ℕ} (hxy : x ≤ y) :
    placeAfterDelete start stop x ≤ placeAfterDelete start stop y := by
  unfold placeAfterDelete
  split_ifs <;> omega

/-- The subregions lose the deleted text. -/
theorem deleteText_spec (h : Sorted region) (hab : a ≤ b) :
    Sorted (deleteText region a b) ∧
      ∀ x, x ∈ points (deleteText region a b) ↔
        (if x < a then x else x + (b - a)) ∈ points region := by
  refine ⟨⟨?_, ?_⟩, fun x => ?_⟩
  · intro s' hs'
    obtain ⟨s, hs, rfl⟩ := List.mem_map.1 hs'
    exact placeAfterDelete_mono (h.1 s hs)
  · rw [deleteText, List.pairwise_map]
    exact h.2.imp placeAfterDelete_mono
  · simp only [mem_points, deleteText, List.mem_map, exists_exists_and_eq_and]
    refine exists_congr fun s => and_congr_right fun _ => ?_
    simp only [mem_def, placeAfterDelete]
    split_ifs <;> omega

end Medit.TextRegion
