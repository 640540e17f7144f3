import Medit.FileView.FileSystem
import Medit.Library.PathNames
import Mathlib.Data.List.TakeWhile

/-!
# Normal names of files

Translation of `_moo_normalize_file_path` from `mooutils/mooutils-fs.cpp`. Names are bytes, and the
working directory is what `g_get_current_dir` returns.

## Main definitions

* `gBuildFilename` — `g_build_filename` of two elements.
* `mooNormalizeFilePath` — `_moo_normalize_file_path`.
* `fileNames` — the names that a file name is read as.

## Main results

* `mooNormalizeFilePath_normal` — what the normal name is.
-/

namespace Medit

open PathNames

abbrev PathString := List UInt8

/-! ## The functions -/

/-- `_moo_path_is_absolute` -/
def mooPathIsAbsolute (path : PathString) : Bool := path.head? == some 47

/-- An element of `g_build_filename` without the separators around it. -/
def trimSlashes (element : PathString) : PathString :=
  ((element.dropWhile (· == 47)).reverse.dropWhile (· == 47)).reverse

/-- `g_build_filename` of two elements. Empty ones are ignored, and the separators in front of the
first one and behind the last one are kept. -/
def gBuildFilename (first second : PathString) : PathString :=
  if first = [] then second
  else if second = [] then first
  else
    first.takeWhile (· == 47) ++
      [47].intercalate ([trimSlashes first, trimSlashes second].filter (· ≠ [])) ++
      (second.reverse.takeWhile (· == 47)).reverse

/-- `normalize_path_string`, which is the code of `collapse_dots` again. -/
def normalizePathString (path : PathString) : PathString := collapseDots path

/-- `normalize_full_path_unix` -/
def normalizeFullPathUnix (path : PathString) : PathString :=
  let normpath := normalizePathString path
  if 1 < normpath.length ∧ normpath.getLast? = some 47 then normpath.dropLast else normpath

/-- `normalize_path` of a file name -/
def normalizeFileName (workingDir filename : PathString) : PathString :=
  normalizeFullPathUnix
    (if mooPathIsAbsolute filename then filename else gBuildFilename workingDir filename)

/-- `_moo_normalize_file_path` -/
def mooNormalizeFilePath (workingDir filename : PathString) : PathString :=
  if filename = [] then [] else normalizeFileName workingDir filename

/-! ## What they are for -/

/-- The components of a path are read behind others: `.` is the directory itself and `..` takes the
last one away. -/
def readComponents (comps : List PathString) (path : PathString) : List PathString :=
  resolve [46] [46, 46] comps (pieces 47 path)

/-- The names that a file name stands for in a working directory. -/
def fileNames (workingDir filename : PathString) : List PathString :=
  readComponents (if mooPathIsAbsolute filename then [] else readComponents [] workingDir) filename

/-- A name of a file or directory below the root. -/
def IsFileName : PathString → Prop := IsName 47 [46] [46, 46]

/-- The absolute path with these names. -/
def rootPath (names : List PathString) : PathString := 47 :: [47].intercalate names

/-! ## Paths that are put together -/

theorem trimSlashes_eq (element : PathString) : ∃ front behind : PathString,
    (∀ c ∈ front, c = 47) ∧ (∀ c ∈ behind, c = 47) ∧
      element = front ++ trimSlashes element ++ behind := by
  refine ⟨element.takeWhile (· == 47),
    ((element.dropWhile (· == 47)).reverse.takeWhile (· == 47)).reverse, ?_, ?_, ?_⟩
  · exact fun c hc => by simpa using List.mem_takeWhile_imp hc
  · exact fun c hc => by simpa using List.mem_takeWhile_imp (List.mem_reverse.1 hc)
  · rw [trimSlashes, List.append_assoc, ← List.reverse_append, List.takeWhile_append_dropWhile,
      List.reverse_reverse, List.takeWhile_append_dropWhile]

theorem pieces_trimSlashes (element : PathString) :
    pieces 47 (trimSlashes element) = pieces 47 element := by
  obtain ⟨front, behind, hfront, hbehind, helement⟩ := trimSlashes_eq element
  conv_rhs => rw [helement, pieces_append_seps hbehind, pieces_seps_append hfront]

theorem pieces_intercalate_filter (a b : PathString) :
    pieces 47 ([47].intercalate ([a, b].filter (· ≠ []))) = pieces 47 a ++ pieces 47 b := by
  by_cases ha : a = [] <;> by_cases hb : b = [] <;>
    simp [ha, hb, List.intercalate, List.intersperse, pieces_append_sep]

/-- The components of a file name that is put together. -/
theorem pieces_gBuildFilename (first second : PathString) :
    pieces 47 (gBuildFilename first second) = pieces 47 first ++ pieces 47 second := by
  unfold gBuildFilename
  split_ifs with hfirst hsecond
  · simp [hfirst]
  · simp [hsecond]
  · have hfront : ∀ c ∈ first.takeWhile (· == 47), c = 47 :=
      fun c hc => by simpa using List.mem_takeWhile_imp hc
    have hbehind : ∀ c ∈ (second.reverse.takeWhile (· == 47)).reverse, c = 47 :=
      fun c hc => by simpa using List.mem_takeWhile_imp (List.mem_reverse.1 hc)
    rw [pieces_append_seps hbehind, pieces_seps_append hfront, pieces_intercalate_filter,
      pieces_trimSlashes, pieces_trimSlashes]

theorem mooPathIsAbsolute_gBuildFilename {workingDir : PathString}
    (h : mooPathIsAbsolute workingDir) (filename : PathString) :
    mooPathIsAbsolute (gBuildFilename workingDir filename) := by
  cases workingDir with
  | nil => simp [mooPathIsAbsolute] at h
  | cons c dir =>
    obtain rfl : c = 47 := by simpa [mooPathIsAbsolute] using h
    rw [gBuildFilename, if_neg (List.cons_ne_nil _ _)]
    split_ifs <;> simp [mooPathIsAbsolute]

/-! ## Normal names -/

theorem foldl_collapseDot (l comps : List PathString) :
    l.foldl (collapseDot true) comps = resolve [46] [46, 46] comps (l.filter (· ≠ [])) := by
  induction l generalizing comps with
  | nil => rfl
  | cons s l ih =>
    rw [List.foldl_cons, ih]
    by_cases hs : s = []
    · simp [collapseDot, hs]
    · rw [List.filter_cons_of_pos (by simpa using hs), resolve, resolve, List.foldl_cons]
      congr 1
      unfold collapseDot visit
      simp only [hs, false_or]
      split_ifs <;> simp_all

/-- An absolute path that is normalized. -/
theorem normalizePathString_absolute {path : PathString} (h : mooPathIsAbsolute path) :
    normalizePathString path = rootPath (readComponents [] path) := by
  have hfirst : (path.head? == some 47) = true := h
  unfold normalizePathString collapseDots
  simp only [hfirst, if_true, foldl_collapseDot]
  unfold rootPath readComponents pieces
  split_ifs with hcomps
  · rw [hcomps]
    rfl
  · rfl

theorem isFileName_of_mem_readComponents {path s : PathString} (h : s ∈ readComponents [] path) :
    IsFileName s :=
  isName_of_mem_resolve h

theorem getLast?_intercalate {names : List PathString} (h : ∀ s ∈ names, IsFileName s)
    (hne : names ≠ []) : ∃ c, ([47].intercalate names).getLast? = some c ∧ c ≠ 47 := by
  induction names with
  | nil => contradiction
  | cons name names ih =>
    obtain ⟨⟨hname, _, _, hsep⟩, hnames⟩ := List.forall_mem_cons.1 h
    by_cases hlast : names = []
    · subst hlast
      refine ⟨name.getLast hname, by simp [List.getLast?_eq_some_getLast hname], ?_⟩
      exact fun hc => hsep (hc ▸ List.getLast_mem hname)
    · obtain ⟨c, hc, hc47⟩ := ih hnames hlast
      refine ⟨c, ?_, hc47⟩
      rw [List.intercalate_cons_of_ne_nil hlast, List.getLast?_append, hc]
      rfl

/-- No slash stands at the end of an absolute path other than the root. -/
theorem getLast?_rootPath {names : List PathString} (h : ∀ s ∈ names, IsFileName s) :
    rootPath names = [47] ∨ (rootPath names).getLast? ≠ some 47 := by
  by_cases hne : names = []
  · exact .inl (by rw [hne]; rfl)
  · obtain ⟨c, hc, hc47⟩ := getLast?_intercalate h hne
    refine .inr ?_
    rw [rootPath, List.getLast?_cons, hc]
    simpa using hc47

theorem normalizeFullPathUnix_absolute {path : PathString} (h : mooPathIsAbsolute path) :
    normalizeFullPathUnix path = rootPath (readComponents [] path) := by
  simp only [normalizeFullPathUnix, normalizePathString_absolute h]
  refine if_neg fun hslash => ?_
  rcases getLast?_rootPath fun s => isFileName_of_mem_readComponents with hroot | hlast
  · rw [hroot] at hslash
    simp at hslash
  · exact hlast hslash.2

/-- The normal name is the absolute path of the names that are read. -/
theorem mooNormalizeFilePath_eq {workingDir filename : PathString}
    (hdir : mooPathIsAbsolute workingDir) (hne : filename ≠ []) :
    mooNormalizeFilePath workingDir filename = rootPath (fileNames workingDir filename) := by
  rw [mooNormalizeFilePath, if_neg hne, normalizeFileName, fileNames]
  by_cases habs : mooPathIsAbsolute filename
  · rw [if_pos habs, if_pos habs, normalizeFullPathUnix_absolute habs]
  · rw [if_neg habs, if_neg habs,
      normalizeFullPathUnix_absolute (mooPathIsAbsolute_gBuildFilename hdir filename),
      readComponents, pieces_gBuildFilename, resolve_append, readComponents, readComponents]

theorem isFileName_of_mem_fileNames {workingDir filename s : PathString}
    (h : s ∈ fileNames workingDir filename) : IsFileName s := by
  unfold fileNames at h
  split_ifs at h
  · exact isFileName_of_mem_readComponents h
  · rw [readComponents, readComponents, ← resolve_append] at h
    rcases mem_resolve h with hs | ⟨hs, hdot, hdotdot⟩
    · simp at hs
    · rcases List.mem_append.1 hs with hs | hs
      all_goals exact ⟨(mem_pieces hs).1, hdot, hdotdot, (mem_pieces hs).2⟩

theorem readComponents_rootPath {names : List PathString} (h : ∀ s ∈ names, IsFileName s) :
    readComponents [] (rootPath names) = names := by
  rw [readComponents, rootPath, pieces_sep_cons,
    pieces_intercalate fun s hs => ⟨(h s hs).1, (h s hs).2.2.2⟩, resolve_names h, List.nil_append]

/-- The normal name of a file is an absolute path of the names that the file name is read as,
without a slash at its end, and it is its own normal name. -/
theorem mooNormalizeFilePath_normal {workingDir filename : PathString}
    (hdir : mooPathIsAbsolute workingDir) (hne : filename ≠ []) :
    let path := mooNormalizeFilePath workingDir filename
    path = rootPath (fileNames workingDir filename) ∧
      (∀ s ∈ fileNames workingDir filename, IsFileName s) ∧
      pieces 47 path = fileNames workingDir filename ∧
      (path = [47] ∨ path.getLast? ≠ some 47) ∧
      ∀ dir, mooNormalizeFilePath dir path = path := by
  have hpath := mooNormalizeFilePath_eq hdir hne
  have hnames : ∀ s ∈ fileNames workingDir filename, IsFileName s :=
    fun s => isFileName_of_mem_fileNames
  have habs : mooPathIsAbsolute (rootPath (fileNames workingDir filename)) := rfl
  have hroot : rootPath (fileNames workingDir filename) ≠ [] := List.cons_ne_nil _ _
  intro path
  rw [show path = rootPath (fileNames workingDir filename) from hpath]
  refine ⟨rfl, hnames, ?_, getLast?_rootPath hnames, fun dir => ?_⟩
  · rw [rootPath, pieces_sep_cons,
      pieces_intercalate fun s hs => ⟨(hnames s hs).1, (hnames s hs).2.2.2⟩]
  · rw [mooNormalizeFilePath, if_neg hroot, normalizeFileName, if_pos habs,
      normalizeFullPathUnix_absolute habs, readComponents_rootPath hnames]

/-- `"../b//c/."` in `"/a/d/"` -/
theorem mooNormalizeFilePath_normal_relative :
    let dir : PathString := [47, 97, 47, 100, 47]
    let name : PathString := [46, 46, 47, 98, 47, 47, 99, 47, 46]
    let path := mooNormalizeFilePath dir name
    path = rootPath (fileNames dir name) ∧ (∀ s ∈ fileNames dir name, IsFileName s) ∧
      pieces 47 path = fileNames dir name ∧ (path = [47] ∨ path.getLast? ≠ some 47) ∧
      ∀ dir', mooNormalizeFilePath dir' path = path :=
  mooNormalizeFilePath_normal (by decide) (by decide)

example : mooNormalizeFilePath [47, 97, 47, 100, 47] [46, 46, 47, 98, 47, 47, 99, 47, 46] =
    [47, 97, 47, 98, 47, 99] := by decide

end Medit
