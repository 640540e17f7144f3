import Mathlib.Data.List.Induction
import Mathlib.Data.List.Lex
import Mathlib.Data.List.Perm.Basic
import Mathlib.Logic.Function.Basic
import Medit.Library.BestFirst

/-!
# Ranking candidates

Translation of `plugins/mooquickopen-ranker.cpp` and of the ranking in a thread of
`plugins/mooquickopen.cpp`. Paths and queries are bytes. Whether a query matches a text, the parts
of a path and the bonus for the history are parameters, and so are the sorts of the standard
library.

## Main definitions

* `addCandidate` — `add_candidate`, with the vector and its index.
* `quickOpenRank` — `quick_open_rank`.
* `quickOpenRankInThread` — the candidates of `quick_open_rank_in_thread`, ranked.
* `merged` — what all additions of a path together say.

## Main results

* `quick_open_rank_right` — the best matching candidates, whatever the order of the additions.
-/

namespace Medit.Ranker

open BestFirst

abbrev Path := List UInt8

/-- `QuickOpenCandidate`, and the arguments of a call of `add_candidate`. -/
structure QuickOpenCandidate (F : Type*) where
  path : Path
  isOpen : Bool
  isCurrent : Bool
  frecency : F
deriving DecidableEq

/-- `QuickOpenResult` -/
structure QuickOpenResult (F : Type*) where
  candidate : QuickOpenCandidate F
  score : ℤ
deriving DecidableEq

/-- What a score depends on: `moo_fuzzy_match` of a query and a text, with the score of a match,
`g_path_get_dirname`, `g_path_get_basename`, and the bonus for a frecency. -/
structure RankEnv (F : Type*) where
  fuzzyMatch : Path → Path → Option ℤ
  pathGetDirname : Path → Path
  pathGetBasename : Path → Path
  frecencyBonus : F → ℤ

def quickOpenBasenameBonus : ℤ := 16
def quickOpenOpenBonus : ℤ := 12
def quickOpenProximityBonus : ℤ := 6
def quickOpenCurrentPenalty : ℤ := 1000
def quickOpenMaxResults : ℕ := 200

variable {F : Type*}

/-- `same_directory` -/
def sameDirectory (env : RankEnv F) (path dir : Path) : Bool :=
  dir != [] && dir == env.pathGetDirname path

/-- `quick_open_score_one` -/
def quickOpenScoreOne (env : RankEnv F) (c : QuickOpenCandidate F) (query activeDir : Path) : ℤ :=
  match env.fuzzyMatch query c.path with
  | none => 0
  | some score =>
    let base := query ≠ [] ∧ (env.fuzzyMatch query (env.pathGetBasename c.path)).isSome
    score + (if base then quickOpenBasenameBonus else 0) + env.frecencyBonus c.frecency +
      (if c.isOpen then quickOpenOpenBonus else 0) +
      (if sameDirectory env c.path activeDir then quickOpenProximityBonus else 0) -
      (if c.isCurrent then quickOpenCurrentPenalty else 0)

/-- `quick_open_result_less` -/
def resultLess (a b : QuickOpenResult F) : Prop :=
  if a.score ≠ b.score then b.score < a.score
  else if a.candidate.path.length ≠ b.candidate.path.length then
    a.candidate.path.length < b.candidate.path.length
  else a.candidate.path < b.candidate.path

instance : DecidableRel (resultLess (F := F)) := fun a b => by
  unfold resultLess
  infer_instance

/-- Whether `quick_open_rank` keeps a path. -/
def matchesQuery (env : RankEnv F) (query path : Path) : Bool :=
  query == [] || (env.fuzzyMatch query path).isSome

/-- The loop of `quick_open_rank` over the candidates. -/
def results (env : RankEnv F) (query activeDir : Path) (candidates : List (QuickOpenCandidate F)) :
    List (QuickOpenResult F) :=
  (candidates.filter fun c => matchesQuery env query c.path).map fun c =>
    ⟨c, quickOpenScoreOne env c query activeDir⟩

/-- `quick_open_rank` -/
def quickOpenRank (s : Sorter (resultLess (F := F))) (env : RankEnv F)
    (candidates : List (QuickOpenCandidate F)) (query activeDir : Path) :
    List (QuickOpenResult F) :=
  s.best quickOpenMaxResults (results env query activeDir candidates)

/-- The vector of candidates and the index of its paths. -/
structure Candidates (F : Type*) where
  list : List (QuickOpenCandidate F)
  index : Path → Option ℕ

/-- Before anything is added. -/
def Candidates.empty : Candidates F := ⟨[], fun _ => none⟩

/-- The index that `quick_open_rank_in_thread` makes for the candidates it gets. -/
def indexOf (candidates : List (QuickOpenCandidate F)) : Path → Option ℕ :=
  candidates.zipIdx.foldl (fun index c => Function.update index c.1.path (some c.2)) fun _ => none

/-! ## The index -/

/-- The index tells where a path is, and each path is there once. -/
def Indexed (list : List (QuickOpenCandidate F)) (index : Path → Option ℕ) : Prop :=
  ∀ path i, index path = some i ↔ (list[i]?).map (·.path) = some path

theorem Indexed.nil : Indexed ([] : List (QuickOpenCandidate F)) fun _ => none := by
  simp [Indexed]

theorem Indexed.lt {list : List (QuickOpenCandidate F)} {index : Path → Option ℕ}
    (h : Indexed list index) {path : Path} {i : ℕ} (hi : index path = some i) :
    i < list.length := by
  obtain ⟨c, hc, -⟩ := Option.map_eq_some_iff.1 ((h path i).1 hi)
  exact (List.getElem?_eq_some_iff.1 hc).1

theorem Indexed.push {list : List (QuickOpenCandidate F)} {index : Path → Option ℕ}
    (h : Indexed list index) {c : QuickOpenCandidate F} (hnone : index c.path = none) :
    Indexed (list ++ [c]) (Function.update index c.path (some list.length)) := by
  intro path i
  have hold := h path i
  rcases lt_trichotomy i list.length with hlt | rfl | hlt
  · rw [List.getElem?_append_left hlt, ← hold]
    rcases eq_or_ne path c.path with rfl | hne
    · simp [hnone, hlt.ne']
    · rw [Function.update_of_ne hne]
  · rw [List.getElem?_concat_length]
    rcases eq_or_ne path c.path with rfl | hne
    · simp
    · rw [Function.update_of_ne hne]
      constructor
      · intro hi
        exact absurd (h.lt hi) (Nat.lt_irrefl _)
      · intro hpath
        exact absurd (Option.some.inj hpath).symm hne
  · rw [List.getElem?_eq_none (by simp; omega)]
    rcases eq_or_ne path c.path with rfl | hne
    · simp [hlt.ne]
    · rw [Function.update_of_ne hne]
      constructor
      · intro hi
        exact absurd (h.lt hi) hlt.le.not_gt
      · intro hpath
        cases hpath

theorem Indexed.nodup {list : List (QuickOpenCandidate F)} {index : Path → Option ℕ}
    (h : Indexed list index) : (list.map (·.path)).Nodup := by
  rw [List.nodup_iff_getElem?_ne_getElem?]
  intro i j hij hj heq
  rw [List.getElem?_map, List.getElem?_map] at heq
  rw [List.length_map] at hj
  have hentry : (list[j]?).map (·.path) = some (list[j]).path := by
    rw [List.getElem?_eq_getElem hj, Option.map_some]
  have hsame := ((h _ i).2 (heq.trans hentry)).symm.trans ((h _ j).2 hentry)
  exact hij.ne (Option.some.inj hsame)

theorem Indexed.unique {list : List (QuickOpenCandidate F)} {index index' : Path → Option ℕ}
    (h : Indexed list index) (h' : Indexed list index') : index = index' := by
  funext path
  apply Option.ext
  intro i
  rw [h path i, h' path i]

theorem indexed_indexOf {list : List (QuickOpenCandidate F)} (h : (list.map (·.path)).Nodup) :
    Indexed list (indexOf list) := by
  induction list using List.reverseRecOn with
  | nil => exact Indexed.nil
  | append_singleton list c ih =>
    rw [List.map_append, List.nodup_append] at h
    obtain ⟨hlist, -, hne⟩ := h
    have hindexed := ih hlist
    have hnone : indexOf list c.path = none := by
      by_contra hsome
      obtain ⟨i, hi⟩ := Option.ne_none_iff_exists'.1 hsome
      obtain ⟨c', hc', hpath⟩ := Option.map_eq_some_iff.1 ((hindexed _ i).1 hi)
      exact hne c'.path (List.mem_map_of_mem (List.mem_of_getElem? hc')) c.path (by simp) hpath
    have hpushed := hindexed.push hnone
    rwa [indexOf, List.zipIdx_append, List.foldl_append, Nat.zero_add]

/-! ## Adding -/

variable [LinearOrder F] [Zero F]

/-- `add_candidate` -/
def addCandidate (w : Candidates F) (added : QuickOpenCandidate F) : Candidates F :=
  if added.path = [] then w
  else
    let w : Candidates F :=
      match w.index added.path with
      | some _ => w
      | none =>
        { list := w.list ++ [⟨added.path, false, false, 0⟩]
          index := Function.update w.index added.path (some w.list.length) }
    match w.index added.path with
    | none => w
    | some i =>
      { w with
        list := w.list.modify i fun c =>
          { c with
            isOpen := c.isOpen || added.isOpen
            isCurrent := c.isCurrent || added.isCurrent
            frecency := max c.frecency added.frecency } }

/-- Calls of `add_candidate`, one after another. -/
def addCandidates (w : Candidates F) (adds : List (QuickOpenCandidate F)) : Candidates F :=
  adds.foldl addCandidate w

/-- `quick_open_rank_in_thread`, with the candidates that documents and the history gave before. -/
def quickOpenRankInThread (s : Sorter (resultLess (F := F))) (env : RankEnv F)
    (extra files : List (QuickOpenCandidate F)) (query activeDir : Path) :
    List (QuickOpenResult F) :=
  quickOpenRank s env (addCandidates ⟨extra, indexOf extra⟩ files).list query activeDir

/-! ## Merging -/

/-- What the additions of a path together say. -/
def merged (adds : List (QuickOpenCandidate F)) (path : Path) : QuickOpenCandidate F :=
  let same := adds.filter (·.path = path)
  ⟨path, same.any (·.isOpen), same.any (·.isCurrent), (same.map (·.frecency)).foldl max 0⟩

theorem merged_perm {adds adds' : List (QuickOpenCandidate F)} (h : adds.Perm adds') (path : Path) :
    merged adds path = merged adds' path := by
  have hsame := h.filter (·.path = path)
  have hmax : ((adds.filter (·.path = path)).map (·.frecency)).foldl max 0 =
      ((adds'.filter (·.path = path)).map (·.frecency)).foldl max 0 :=
    (hsame.map (·.frecency)).foldl_op_eq
  simp only [merged, hsame.any_eq, hmax]

theorem merged_concat_ne {adds : List (QuickOpenCandidate F)} {added : QuickOpenCandidate F}
    {path : Path} (h : added.path ≠ path) : merged (adds ++ [added]) path = merged adds path := by
  simp [merged, List.filter_append, h]

theorem merged_concat (adds : List (QuickOpenCandidate F)) (added : QuickOpenCandidate F) :
    merged (adds ++ [added]) added.path =
      { merged adds added.path with
        isOpen := (merged adds added.path).isOpen || added.isOpen
        isCurrent := (merged adds added.path).isCurrent || added.isCurrent
        frecency := max (merged adds added.path).frecency added.frecency } := by
  simp [merged, List.filter_append]

/-- The vector has what the additions together say. -/
structure Holds (adds : List (QuickOpenCandidate F)) (w : Candidates F) : Prop where
  indexed : Indexed w.list w.index
  entry : ∀ c ∈ w.list, c.path ≠ [] ∧ c = merged adds c.path
  found : ∀ added ∈ adds, added.path ≠ [] → ∃ i, w.index added.path = some i

theorem Holds.empty : Holds [] (Candidates.empty : Candidates F) :=
  ⟨Indexed.nil, by simp [Candidates.empty], by simp⟩

/-- A new entry says nothing yet. -/
theorem Holds.push {adds : List (QuickOpenCandidate F)} {w : Candidates F} (h : Holds adds w)
    {path : Path} (hpath : path ≠ []) (hnone : w.index path = none) :
    Holds adds
      { list := w.list ++ [⟨path, false, false, 0⟩]
        index := Function.update w.index path (some w.list.length) } := by
  have hnew : ∀ added ∈ adds, added.path ≠ path := by
    rintro added hadded rfl
    obtain ⟨i, hi⟩ := h.found added hadded hpath
    rw [hnone] at hi
    cases hi
  refine ⟨h.indexed.push hnone, ?_, ?_⟩
  · intro c hc
    rcases List.mem_append.1 hc with hold | hc
    · exact h.entry c hold
    · obtain rfl := List.mem_singleton.1 hc
      have hsame : adds.filter (·.path = path) = [] := by
        simpa [List.filter_eq_nil_iff] using hnew
      exact ⟨hpath, by simp [merged, hsame]⟩
  · intro added hadded hne
    obtain ⟨i, hi⟩ := h.found added hadded hne
    exact ⟨i, (Function.update_of_ne (hnew added hadded) _ _).trans hi⟩

/-- An entry gets what is added to it. -/
theorem Holds.merge {adds : List (QuickOpenCandidate F)} {w : Candidates F} (h : Holds adds w)
    {added : QuickOpenCandidate F} {i : ℕ} (hi : w.index added.path = some i) :
    Holds (adds ++ [added]) { w with list := w.list.modify i fun c =>
      { c with
        isOpen := c.isOpen || added.isOpen
        isCurrent := c.isCurrent || added.isCurrent
        frecency := max c.frecency added.frecency } } := by
  refine ⟨?_, ?_, ?_⟩
  · intro path j
    rw [h.indexed path j, List.getElem?_modify]
    cases w.list[j]? with
    | none => simp
    | some c =>
      simp only [Option.map_some, Option.map_eq_map]
      split_ifs <;> rfl
  · intro c hc
    obtain ⟨j, hj⟩ := List.mem_iff_getElem?.1 hc
    rw [List.getElem?_modify] at hj
    obtain ⟨before, hbefore, rfl⟩ := Option.map_eq_some_iff.1 hj
    obtain ⟨hpath, hmerged⟩ := h.entry before (List.mem_of_getElem? hbefore)
    have hindex : w.index before.path = some j := (h.indexed _ _).2 (by rw [hbefore]; rfl)
    split_ifs with hij
    · have hadded : before.path = added.path := by
        have hentry := (h.indexed _ _).1 hi
        rw [hij, hbefore] at hentry
        exact Option.some.inj hentry
      rw [hadded] at hmerged
      refine ⟨hpath, ?_⟩
      simp only [hadded, merged_concat, ← hmerged]
    · have hne : added.path ≠ before.path := by
        intro heq
        rw [heq, hindex] at hi
        exact hij (Option.some.inj hi).symm
      refine ⟨hpath, ?_⟩
      rw [merged_concat_ne hne]
      exact hmerged
  · intro other hother hne
    rcases List.mem_append.1 hother with hold | hnew
    · exact h.found other hold hne
    · obtain rfl := List.mem_singleton.1 hnew
      exact ⟨i, hi⟩

/-- A call without a path changes nothing. -/
theorem Holds.skip {adds : List (QuickOpenCandidate F)} {w : Candidates F} (h : Holds adds w)
    {added : QuickOpenCandidate F} (hpath : added.path = []) : Holds (adds ++ [added]) w := by
  refine ⟨h.indexed, ?_, ?_⟩
  · intro c hc
    obtain ⟨hne, hmerged⟩ := h.entry c hc
    refine ⟨hne, ?_⟩
    rw [merged_concat_ne (hpath ▸ hne.symm)]
    exact hmerged
  · intro other hother hne
    rcases List.mem_append.1 hother with hold | hnew
    · exact h.found other hold hne
    · obtain rfl := List.mem_singleton.1 hnew
      exact absurd hpath hne

theorem Holds.addCandidate {adds : List (QuickOpenCandidate F)} {w : Candidates F}
    (h : Holds adds w) (added : QuickOpenCandidate F) :
    Holds (adds ++ [added]) (addCandidate w added) := by
  unfold Ranker.addCandidate
  split_ifs with hpath
  · exact h.skip hpath
  · cases hindex : w.index added.path with
    | some i =>
      simp only [hindex]
      exact h.merge hindex
    | none =>
      have hpushed := h.push hpath hindex
      simp only [Function.update_self]
      exact hpushed.merge (Function.update_self _ _ _)

theorem Holds.addCandidates {adds : List (QuickOpenCandidate F)} {w : Candidates F}
    (h : Holds adds w) (adds' : List (QuickOpenCandidate F)) :
    Holds (adds ++ adds') (addCandidates w adds') := by
  induction adds' generalizing adds w with
  | nil => simpa [Ranker.addCandidates] using h
  | cons added adds' ih =>
    have hrest := ih (h.addCandidate added)
    rwa [List.append_assoc] at hrest

omit [LinearOrder F] [Zero F] in
theorem path_of_mem_modify {list : List (QuickOpenCandidate F)} {i : ℕ}
    {f : QuickOpenCandidate F → QuickOpenCandidate F} {c : QuickOpenCandidate F}
    (hc : c ∈ list.modify i f) (hf : ∀ c, (f c).path = c.path) : ∃ c' ∈ list, c'.path = c.path := by
  obtain ⟨j, hj⟩ := List.mem_iff_getElem?.1 hc
  rw [List.getElem?_modify] at hj
  obtain ⟨before, hbefore, rfl⟩ := Option.map_eq_some_iff.1 hj
  refine ⟨before, List.mem_of_getElem? hbefore, ?_⟩
  split_ifs
  · exact (hf before).symm
  · rfl

/-- The paths are those that were added. -/
theorem path_of_mem_addCandidate {w : Candidates F} {added c : QuickOpenCandidate F}
    (hc : c ∈ (addCandidate w added).list) :
    c.path = added.path ∨ ∃ c' ∈ w.list, c'.path = c.path := by
  unfold addCandidate at hc
  split_ifs at hc
  · exact Or.inr ⟨c, hc, rfl⟩
  · cases hindex : w.index added.path with
    | some i =>
      simp only [hindex] at hc
      exact Or.inr (path_of_mem_modify hc fun _ => rfl)
    | none =>
      simp only [hindex, Function.update_self] at hc
      obtain ⟨c', hc', hpath⟩ := path_of_mem_modify hc fun _ => rfl
      rcases List.mem_append.1 hc' with hold | hnew
      · exact Or.inr ⟨c', hold, hpath⟩
      · obtain rfl := List.mem_singleton.1 hnew
        exact Or.inl hpath.symm

theorem path_of_mem_addCandidates {w : Candidates F} {adds : List (QuickOpenCandidate F)}
    {c : QuickOpenCandidate F} (hc : c ∈ (addCandidates w adds).list) :
    (∃ added ∈ adds, added.path = c.path) ∨ ∃ c' ∈ w.list, c'.path = c.path := by
  induction adds generalizing w with
  | nil => exact Or.inr ⟨c, hc, rfl⟩
  | cons added adds ih =>
    obtain ⟨other, hother, hpath⟩ | ⟨c', hc', hpath⟩ := ih hc
    · exact Or.inl ⟨other, List.mem_cons_of_mem added hother, hpath⟩
    · obtain hsame | ⟨c'', hc'', hpath'⟩ := path_of_mem_addCandidate hc'
      · exact Or.inl ⟨added, List.mem_cons_self, hsame.symm.trans hpath⟩
      · exact Or.inr ⟨c'', hc'', hpath'.trans hpath⟩

/-- All candidates that additions give. -/
def candidatesOf (adds : List (QuickOpenCandidate F)) : List (QuickOpenCandidate F) :=
  (addCandidates .empty adds).list

theorem mem_candidatesOf {adds : List (QuickOpenCandidate F)} {c : QuickOpenCandidate F} :
    c ∈ candidatesOf adds ↔
      c.path ≠ [] ∧ (∃ added ∈ adds, added.path = c.path) ∧ c = merged adds c.path := by
  have hholds := Holds.empty.addCandidates adds
  rw [List.nil_append] at hholds
  constructor
  · intro hc
    obtain ⟨hpath, hmerged⟩ := hholds.entry c hc
    refine ⟨hpath, ?_, hmerged⟩
    obtain hadded | ⟨c', hc', -⟩ := path_of_mem_addCandidates hc
    · exact hadded
    · cases hc'
  · rintro ⟨hpath, ⟨added, hadded, hsame⟩, hmerged⟩
    obtain ⟨i, hi⟩ := hholds.found added hadded (hsame ▸ hpath)
    obtain ⟨c', hc', hpath'⟩ := Option.map_eq_some_iff.1 ((hholds.indexed _ i).1 hi)
    have hmem := List.mem_of_getElem? hc'
    rw [hmerged, ← hsame, ← hpath', ← (hholds.entry c' hmem).2]
    exact hmem

theorem nodup_candidatesOf (adds : List (QuickOpenCandidate F)) :
    ((candidatesOf adds).map (·.path)).Nodup :=
  (Holds.empty.addCandidates adds).indexed.nodup

theorem candidatesOf_perm {adds adds' : List (QuickOpenCandidate F)} (h : adds.Perm adds') :
    (candidatesOf adds).Perm (candidatesOf adds') := by
  rw [List.perm_ext_iff_of_nodup (nodup_candidatesOf adds).of_map (nodup_candidatesOf adds').of_map]
  intro c
  rw [mem_candidatesOf, mem_candidatesOf, merged_perm h]
  simp only [h.mem_iff]

/-- The index that is made again in the thread is the one that was there. -/
theorem addCandidates_indexOf (adds files : List (QuickOpenCandidate F)) :
    (addCandidates ⟨candidatesOf adds, indexOf (candidatesOf adds)⟩ files).list =
      candidatesOf (adds ++ files) := by
  have hindexed := (Holds.empty.addCandidates adds).indexed
  have hindex := (indexed_indexOf (nodup_candidatesOf adds)).unique hindexed
  rw [hindex, candidatesOf, candidatesOf, addCandidates, addCandidates, addCandidates,
    List.foldl_append]

/-! ## Ranking -/

section Order

omit [LinearOrder F] [Zero F]

theorem resultLess_iff {a b : QuickOpenResult F} :
    resultLess a b ↔ b.score < a.score ∨ a.score = b.score ∧
      (a.candidate.path.length < b.candidate.path.length ∨
        a.candidate.path.length = b.candidate.path.length ∧
          a.candidate.path < b.candidate.path) := by
  unfold resultLess
  split_ifs with hscore hlength <;> grind

theorem resultLess_asymm (a b : QuickOpenResult F) (h : resultLess a b) : ¬ resultLess b a := by
  rw [resultLess_iff] at h ⊢
  have hpath : a.candidate.path < b.candidate.path → ¬ b.candidate.path < a.candidate.path :=
    List.lt_asymm
  grind

theorem not_resultLess_trans (a b c : QuickOpenResult F) (hab : ¬ resultLess b a)
    (hbc : ¬ resultLess c b) : ¬ resultLess c a := by
  rw [resultLess_iff] at hab hbc ⊢
  have hpath : ¬ b.candidate.path < a.candidate.path → ¬ c.candidate.path < b.candidate.path →
      ¬ c.candidate.path < a.candidate.path := fun hab hbc => List.le_trans hab hbc
  grind

/-- Two results that are in the same place of the order have the same path. -/
theorem path_eq_of_not_less {a b : QuickOpenResult F} (hab : ¬ resultLess a b)
    (hba : ¬ resultLess b a) : a.candidate.path = b.candidate.path := by
  rw [resultLess_iff] at hab hba
  apply List.le_antisymm <;> intro hlt <;> grind

/-- The order of the results can be sorted by. -/
def sorter : Sorter (resultLess (F := F)) :=
  .ofMergeSort resultLess_asymm not_resultLess_trans

theorem mem_results {env : RankEnv F} {query activeDir : Path}
    {candidates : List (QuickOpenCandidate F)} {r : QuickOpenResult F} :
    r ∈ results env query activeDir candidates ↔
      r.candidate ∈ candidates ∧ matchesQuery env query r.candidate.path ∧
        r.score = quickOpenScoreOne env r.candidate query activeDir := by
  obtain ⟨c, score⟩ := r
  simp only [results, List.mem_map, List.mem_filter, QuickOpenResult.mk.injEq]
  constructor
  · rintro ⟨c, ⟨hc, hmatches⟩, rfl, rfl⟩
    exact ⟨hc, hmatches, rfl⟩
  · rintro ⟨hc, hmatches, rfl⟩
    exact ⟨c, ⟨hc, hmatches⟩, rfl, rfl⟩

theorem nodup_results (env : RankEnv F) (query activeDir : Path)
    {candidates : List (QuickOpenCandidate F)} (h : (candidates.map (·.path)).Nodup) :
    ((results env query activeDir candidates).map (·.candidate.path)).Nodup := by
  have hpaths : (results env query activeDir candidates).map (·.candidate.path) =
      (candidates.filter fun c => matchesQuery env query c.path).map (·.path) := by
    simp [results, Function.comp_def]
  rw [hpaths]
  exact h.sublist (List.filter_sublist.map _)

/-- Results with different paths are in different places of the order. -/
theorem noTies_results {l : List (QuickOpenResult F)} (h : (l.map (·.candidate.path)).Nodup) :
    NoTies resultLess l := fun _ ha _ hb hab hba =>
  List.inj_on_of_nodup_map h ha hb (path_eq_of_not_less hab hba)

theorem pairwise_sort {l : List (QuickOpenResult F)} (h : (l.map (·.candidate.path)).Nodup) :
    (sorter.sort l).Pairwise resultLess := by
  have hdistinct := ((sorter.sort_perm l).map (·.candidate.path)).nodup_iff.2 h
  have hboth := (sorter.sort_sorted l).and (List.pairwise_map.1 hdistinct)
  refine hboth.imp ?_
  rintro a b ⟨hba, hne⟩
  by_contra hab
  exact hne (path_eq_of_not_less hab hba)

end Order

/-- Whatever the order in which candidates are added, and whatever they repeat, `quick_open_rank`
gives the first results of one list: it is sorted, and has every path once that was added and
matches, with all that was said about it. The ranking in the thread, which gets its candidates in
two parts, gives the same. -/
theorem quick_open_rank_right (env : RankEnv F) (query activeDir : Path)
    (adds : List (QuickOpenCandidate F)) :
    ∃ all : List (QuickOpenResult F),
      all.Pairwise resultLess ∧ (all.map (·.candidate.path)).Nodup ∧
      (∀ r, r ∈ all ↔ r.candidate.path ≠ [] ∧ (∃ added ∈ adds, added.path = r.candidate.path) ∧
        r.candidate = merged adds r.candidate.path ∧ matchesQuery env query r.candidate.path ∧
        r.score = quickOpenScoreOne env r.candidate query activeDir) ∧
      (∀ (s : Sorter resultLess) (adds' : List (QuickOpenCandidate F)), adds'.Perm adds →
        quickOpenRank s env (candidatesOf adds') query activeDir = all.take quickOpenMaxResults) ∧
      ∀ (s : Sorter resultLess) (extra files : List (QuickOpenCandidate F)),
        (extra ++ files).Perm adds →
        quickOpenRankInThread s env (candidatesOf extra) files query activeDir =
          all.take quickOpenMaxResults := by
  have hnodup := nodup_results env query activeDir (nodup_candidatesOf adds)
  have hrank (s : Sorter resultLess) (adds' : List (QuickOpenCandidate F)) (h : adds'.Perm adds) :
      quickOpenRank s env (candidatesOf adds') query activeDir =
        (sorter.sort (results env query activeDir (candidatesOf adds))).take quickOpenMaxResults :=
    sorter.best_eq s (noTies_results hnodup) (((candidatesOf_perm h).filter _).map _) _
  refine ⟨_, pairwise_sort hnodup, ?_, ?_, hrank, ?_⟩
  · exact ((sorter.sort_perm _).map _).nodup_iff.2 hnodup
  · intro r
    rw [(sorter.sort_perm _).mem_iff, mem_results, mem_candidatesOf]
    simp only [and_assoc]
  · intro s extra files h
    rw [quickOpenRankInThread, addCandidates_indexOf]
    exact hrank s _ h

end Medit.Ranker
