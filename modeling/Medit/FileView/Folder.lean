import Mathlib.Data.List.AList
import Medit.Library.Machine
import Medit.Library.StringEq

/-!
# Folders

The files of a `MooFolder`: they are read once, and then changed by what the monitor tells, by checks
of single names, and by a comparison with what is in the directory.

## Main definitions

* `MooFolderImpl` — a folder with its table of files and the signals that have been emitted.
* `MooFolderImpl.replay` — the files that a view has after the signals.
* `MooFolderImpl.step` — what happens to a folder.

## Main results

* `MooFolderImpl.view_right` — a view has the files of the folder, when no file is created that is
  there already; what is read first is right, and a reload loses the parent folder.
-/

namespace Medit

abbrev BaseName := List UInt8

/-- The name `..` of the parent folder. -/
def dotDot : BaseName := [46, 46]

/-- A file, with its address. -/
structure MooFile where
  id : ℕ
  name : BaseName
deriving DecidableEq

/-- What `g_dir_read_name` gives for an open directory: each entry once, without `.` and `..`. -/
structure Listing where
  names : List BaseName
  nodup : names.Nodup
  nonempty : [] ∉ names
  noParent : dotDot ∉ names

/-- The order of the names in a hash table, which is not specified. -/
structure HashOrder where
  order : List BaseName → List BaseName
  perm (l : List BaseName) : (order l).Perm l

/-- The signals of a folder that tell of its files, and its end. -/
inductive FolderSignal
  | filesAdded (files : List MooFile)
  | filesRemoved (files : List MooFile)
  | deleted
deriving DecidableEq

/-- The files of a folder. `nextId` is the address of the next file, and `signals` is what has been
emitted. -/
structure MooFolderImpl where
  path : BaseName
  files : AList fun _ : BaseName => MooFile
  deleted : Bool
  proxy : Bool
  reloadIdle : Bool
  nextId : ℕ
  signals : List FolderSignal

/-- `_moo_file_new` -/
def mooFileNew (id : ℕ) (basename : BaseName) : Option MooFile :=
  if basename = [] then none else some ⟨id, basename⟩

namespace MooFolderImpl

/-- `folder_emit_files` -/
def emitFiles (impl : MooFolderImpl) (sig : List MooFile → FolderSignal) (files : List MooFile) :
    MooFolderImpl :=
  if files ≠ [] ∧ impl.proxy = true then { impl with signals := impl.signals ++ [sig files] }
  else impl

/-- One name in the loop of `get_names`. -/
def addName (r : MooFolderImpl × List MooFile) (name : BaseName) : MooFolderImpl × List MooFile :=
  match mooFileNew r.1.nextId name with
  | none => r
  | some file =>
    ({ r.1 with nextId := r.1.nextId + 1, files := r.1.files.insert name file }, file :: r.2)

/-- `get_names` -/
def getNames (impl : MooFolderImpl) (listing : Listing) : MooFolderImpl :=
  let (impl, added) := (dotDot :: listing.names).foldl addName (impl, [])
  impl.emitFiles .filesAdded added

/-- `_moo_folder_new` of a directory that can be opened -/
def new (path : BaseName) (listing : Listing) : MooFolderImpl :=
  let impl : MooFolderImpl := ⟨path, ∅, false, true, false, 0, []⟩
  impl.getNames listing

/-- `folder_emit_deleted` -/
def emitDeleted (impl : MooFolderImpl) : MooFolderImpl :=
  { impl with
    files := ∅
    reloadIdle := false
    deleted := true
    signals := if impl.proxy then impl.signals ++ [.deleted] else impl.signals }

/-- `file_deleted` -/
def fileDeleted (impl : MooFolderImpl) (name : BaseName) : MooFolderImpl :=
  if impl.deleted then impl
  else if name = impl.path then impl.emitDeleted
  else
    match impl.files.lookup name with
    | none => impl
    | some file =>
      let impl := { impl with files := impl.files.erase name }
      impl.emitFiles .filesRemoved [file]

/-- `file_changed` -/
def fileChanged (impl : MooFolderImpl) (name : BaseName) : MooFolderImpl :=
  if impl.deleted then impl
  else if name = impl.path then { impl with reloadIdle := true }
  else impl

/-- `file_created` -/
def fileCreated (impl : MooFolderImpl) (name : BaseName) : MooFolderImpl :=
  if impl.deleted then impl
  else
    match mooFileNew impl.nextId name with
    | none => impl
    | some file =>
      let impl := { impl with nextId := impl.nextId + 1, files := impl.files.insert name file }
      impl.emitFiles .filesAdded [file]

/-- `_moo_folder_check_exists`, with what `g_file_test` says -/
def checkExists (impl : MooFolderImpl) (name : BaseName) (exist : Bool) : MooFolderImpl :=
  let file := impl.files.lookup name
  if exist && file.isNone then impl.fileCreated name
  else if !exist && file.isSome then impl.fileDeleted name
  else impl

variable (hash : HashOrder)

/-- `get_unique`: the names in one table only. -/
def getUnique (names others : List BaseName) : List BaseName := hash.order (names.filter (· ∉ others))

/-- `moo_folder_do_reload`, with what is in the directory if it can be opened -/
def doReload (impl : MooFolderImpl) (dir : Option Listing) : MooFolderImpl :=
  if impl.deleted then impl
  else
    let impl := { impl with reloadIdle := false }
    match dir with
    | none => impl.emitDeleted
    | some listing =>
      let newFiles := getUnique hash listing.names impl.files.keys
      let deleted := getUnique hash impl.files.keys listing.names
      deleted.foldl fileDeleted (newFiles.foldl fileCreated impl)

end MooFolderImpl

/-- What happens to a folder: an event of the monitor, a reload that has been put off or that is asked
for, and a check of a name. What is in the directory is given where the folder looks at it. -/
inductive FolderEvent
  | created (name : BaseName)
  | deleted (name : BaseName)
  | changed (name : BaseName)
  | error
  | idle (dir : Option Listing)
  | reload (dir : Option Listing)
  | checkExists (name : BaseName) (exist : Bool)

namespace MooFolderImpl

/-- One thing that happens. -/
def step (hash : HashOrder) (impl : MooFolderImpl) : FolderEvent → MooFolderImpl
  | .created name => impl.fileCreated name
  | .deleted name => impl.fileDeleted name
  | .changed name => impl.fileChanged name
  | .error => impl.fileChanged impl.path
  | .idle dir => if impl.reloadIdle then impl.doReload hash dir else impl
  | .reload dir => { impl with reloadIdle := false }.doReload hash dir
  | .checkExists name exist => impl.checkExists name exist

/-- The files of a folder. -/
def fileList (impl : MooFolderImpl) : List MooFile := impl.files.entries.map Sigma.snd

/-- What a signal does to a view. -/
def view (files : List MooFile) : FolderSignal → List MooFile
  | .filesAdded added => files ++ added
  | .filesRemoved removed => files.diff removed
  | .deleted => []

/-- The files of a view that has seen signals from the start on. -/
def replay (signals : List FolderSignal) : List MooFile := signals.foldl view []

/-- The views have the files of the folder, which are in the table under their names. -/
structure Mirrored (impl : MooFolderImpl) : Prop where
  proxy : impl.proxy = true
  named : ∀ e ∈ impl.files.entries, e.2.name = e.1
  mirror : (replay impl.signals).Perm impl.fileList
  deleted : impl.deleted = true → impl.files = ∅

/-- No file is created that is there already. -/
def Allowed (impl : MooFolderImpl) : FolderEvent → Prop
  | .created name => name ∉ impl.files
  | _ => True

/-! ## Single files -/

theorem fileList_insert {impl : MooFolderImpl} {name : BaseName} (h : name ∉ impl.files)
    (file : MooFile) (nextId : ℕ) :
    fileList { impl with nextId := nextId, files := impl.files.insert name file } =
      file :: impl.fileList := by
  rw [fileList, AList.entries_insert_of_notMem h]
  rfl

theorem fileList_erase {impl : MooFolderImpl} {name : BaseName} {file : MooFile}
    (h : impl.files.lookup name = some file) :
    (fileList { impl with files := impl.files.erase name }).Perm (impl.fileList.erase file) := by
  have hmem : name ∈ impl.files.entries.keys :=
    AList.mem_keys.1 (AList.lookup_isSome.1 (by simp [h]))
  obtain ⟨file', l₁, l₂, hl₁, hentries, hkerase⟩ := List.exists_of_kerase hmem
  obtain rfl : file' = file := by
    have hmem' : (⟨name, file'⟩ : Sigma fun _ : BaseName => MooFile) ∈ impl.files.entries := by
      simp [hentries]
    simpa [h] using (AList.mem_lookup_iff.2 hmem').symm
  have hold : impl.fileList.Perm (file' :: (l₁ ++ l₂).map Sigma.snd) := by
    rw [fileList, hentries, List.map_append, List.map_append]
    exact List.perm_middle
  have hnew : fileList { impl with files := impl.files.erase name } = (l₁ ++ l₂).map Sigma.snd := by
    rw [fileList]
    exact congrArg _ hkerase
  rw [hnew]
  simpa using (hold.erase file').symm

theorem replay_append (signals : List FolderSignal) (sig : FolderSignal) :
    replay (signals ++ [sig]) = view (replay signals) sig := by
  simp [replay]

/-- A signal is emitted that tells of what has happened to the table. -/
theorem mirrored_emitFiles {impl : MooFolderImpl} (hproxy : impl.proxy = true)
    (hdel : ¬ impl.deleted = true) (hnamed : ∀ e ∈ impl.files.entries, e.2.name = e.1) {sig : List MooFile → FolderSignal} {file : MooFile}
    (hview : (view (replay impl.signals) (sig [file])).Perm impl.fileList) :
    (impl.emitFiles sig [file]).Mirrored := by
  have heq : impl.emitFiles sig [file] = { impl with signals := impl.signals ++ [sig [file]] } := by
    simp [emitFiles, hproxy]
  rw [heq]
  refine ⟨hproxy, hnamed, ?_, fun hd => absurd hd hdel⟩
  rw [replay_append]
  exact hview

theorem mooFileNew_name {id : ℕ} {name : BaseName} {file : MooFile}
    (h : mooFileNew id name = some file) : file.name = name := by
  unfold mooFileNew at h
  split_ifs at h
  obtain rfl := Option.some.inj h
  rfl

/-- A file that is new is told of. -/
theorem Mirrored.fileCreated {impl : MooFolderImpl} (h : impl.Mirrored) {name : BaseName}
    (hnew : name ∉ impl.files) : (impl.fileCreated name).Mirrored := by
  unfold MooFolderImpl.fileCreated
  split_ifs with hdel
  · exact h
  · cases hfile : mooFileNew impl.nextId name with
    | none => exact h
    | some file =>
      apply mirrored_emitFiles (by exact h.proxy) (by exact hdel)
      · intro e he
        rw [AList.entries_insert_of_notMem hnew] at he
        rcases List.mem_cons.1 he with rfl | he
        · exact mooFileNew_name hfile
        · exact h.named e he
      refine .trans ?_ (.of_eq (fileList_insert hnew file (impl.nextId + 1)).symm)
      exact (List.perm_append_singleton file _).trans (h.mirror.cons file)

theorem Mirrored.emitDeleted {impl : MooFolderImpl} (h : impl.Mirrored) :
    impl.emitDeleted.Mirrored := by
  refine ⟨h.proxy, by simp [MooFolderImpl.emitDeleted], ?_, fun _ => rfl⟩
  simp only [MooFolderImpl.emitDeleted, h.proxy, if_true, replay_append]
  exact .refl _

/-- A file that is gone is told of. -/
theorem Mirrored.fileDeleted {impl : MooFolderImpl} (h : impl.Mirrored) (name : BaseName) :
    (impl.fileDeleted name).Mirrored := by
  unfold MooFolderImpl.fileDeleted
  split_ifs with hdel hpath
  · exact h
  · exact h.emitDeleted
  · cases hfile : impl.files.lookup name with
    | none => exact h
    | some file =>
      apply mirrored_emitFiles (by exact h.proxy) (by exact hdel)
      · exact fun e he => h.named e ((List.kerase_sublist name impl.files.entries).subset he)
      refine .trans ?_ (fileList_erase hfile).symm
      simpa [MooFolderImpl.view] using h.mirror.erase file

/-- The names of the files after one has been created. -/
theorem mem_fileCreated {impl : MooFolderImpl} (hdel : impl.deleted = false) {name : BaseName}
    (hname : name ≠ []) :
    (impl.fileCreated name).deleted = false ∧
      ∀ n, n ∈ (impl.fileCreated name).files ↔ n = name ∨ n ∈ impl.files := by
  simp only [MooFolderImpl.fileCreated, hdel, mooFileNew, hname, if_false, emitFiles,
    Bool.false_eq_true]
  split_ifs <;> simp

/-- The names of the files after one has been deleted, unless the folder itself has been. -/
theorem mem_fileDeleted {impl : MooFolderImpl} {name : BaseName}
    (hdel : (impl.fileDeleted name).deleted = false) :
    impl.deleted = false ∧ ∀ n, n ∈ (impl.fileDeleted name).files ↔ n ≠ name ∧ n ∈ impl.files := by
  unfold MooFolderImpl.fileDeleted at hdel ⊢
  split_ifs at hdel ⊢ with hd hpath
  · simp [hd] at hdel
  · simp [MooFolderImpl.emitDeleted] at hdel
  · refine ⟨by simpa using hd, fun n => ?_⟩
    cases hfile : impl.files.lookup name with
    | none =>
      have hno : name ∉ impl.files := AList.lookup_eq_none.1 hfile
      simp only [ne_eq, iff_and_self]
      rintro hmem rfl
      exact hno hmem
    | some file =>
      simp only [emitFiles]
      split_ifs <;> simp [AList.mem_erase]

/-! ## Reloading -/

theorem Mirrored.foldl_fileDeleted {impl : MooFolderImpl} (h : impl.Mirrored)
    (names : List BaseName) : (names.foldl MooFolderImpl.fileDeleted impl).Mirrored := by
  induction names generalizing impl with
  | nil => exact h
  | cons name names ih => exact ih (h.fileDeleted name)

theorem mem_foldl_fileDeleted {impl : MooFolderImpl} {names : List BaseName}
    (hdel : (names.foldl fileDeleted impl).deleted = false) : impl.deleted = false ∧
      ∀ n, n ∈ (names.foldl fileDeleted impl).files ↔ n ∉ names ∧ n ∈ impl.files := by
  induction names generalizing impl with
  | nil => exact ⟨hdel, by simp⟩
  | cons name names ih =>
    obtain ⟨hdel', hmem'⟩ := ih hdel
    obtain ⟨hdel'', hmem''⟩ := mem_fileDeleted hdel'
    refine ⟨hdel'', fun n => ?_⟩
    rw [List.foldl_cons, hmem', hmem'', List.mem_cons]
    tauto

/-- Files that are not there are created one after the other. -/
theorem Mirrored.foldl_fileCreated {impl : MooFolderImpl} (h : impl.Mirrored)
    (hdel : impl.deleted = false) {names : List BaseName} (hnodup : names.Nodup)
    (hnonempty : [] ∉ names) (hnew : ∀ n ∈ names, n ∉ impl.files) :
    (names.foldl MooFolderImpl.fileCreated impl).Mirrored ∧
      ∀ n, n ∈ (names.foldl MooFolderImpl.fileCreated impl).files ↔ n ∈ names ∨ n ∈ impl.files := by
  induction names generalizing impl with
  | nil => exact ⟨h, by simp⟩
  | cons name names ih =>
    simp only [List.nodup_cons, List.mem_cons, not_or] at hnodup hnonempty
    rw [List.forall_mem_cons] at hnew
    obtain ⟨hdel', hmem⟩ := mem_fileCreated hdel (Ne.symm hnonempty.1)
    obtain ⟨hmirror, hall⟩ := ih (h.fileCreated hnew.1) hdel' hnodup.2 hnonempty.2 fun n hn => by
      rw [hmem]
      rintro (rfl | hold)
      · exact hnodup.1 hn
      · exact hnew.2 n hn hold
    refine ⟨hmirror, fun n => ?_⟩
    rw [List.foldl_cons, hall, hmem, List.mem_cons]
    tauto

variable {hash : HashOrder}

theorem mem_getUnique {names others : List BaseName} {n : BaseName} :
    n ∈ getUnique hash names others ↔ n ∈ names ∧ n ∉ others := by
  rw [getUnique, (hash.perm _).mem_iff]
  simp

/-- A reload tells of what it changes; afterwards there is what is in the directory, without the
parent folder. -/
theorem Mirrored.doReload {impl : MooFolderImpl} (h : impl.Mirrored) (dir : Option Listing) :
    (impl.doReload hash dir).Mirrored ∧ ∀ listing, dir = some listing → impl.deleted = false →
      (impl.doReload hash dir).deleted = false →
      (impl.doReload hash dir).files.keys.Perm listing.names := by
  unfold MooFolderImpl.doReload
  split_ifs with hdel
  · exact ⟨h, fun _ _ hd => by simp [hdel] at hd⟩
  · have h' : Mirrored { impl with reloadIdle := false } := ⟨h.proxy, h.named, h.mirror, h.deleted⟩
    cases dir with
    | none => exact ⟨h'.emitDeleted, by simp⟩
    | some listing =>
      have hnodup : (getUnique hash listing.names impl.files.keys).Nodup :=
        (hash.perm _).nodup_iff.2 (listing.nodup.filter _)
      obtain ⟨hmirror, hmem⟩ := h'.foldl_fileCreated (by simpa using hdel) hnodup
        (fun hn => listing.nonempty (mem_getUnique.1 hn).1) fun n hn hold =>
          (mem_getUnique.1 hn).2 (AList.mem_keys.1 hold)
      refine ⟨hmirror.foldl_fileDeleted _, ?_⟩
      intro listing' heq _ hstay
      obtain rfl := Option.some.inj heq
      obtain ⟨-, hall⟩ := mem_foldl_fileDeleted hstay
      refine (List.perm_ext_iff_of_nodup (AList.keys_nodup _) listing.nodup).2 fun n => ?_
      rw [← AList.mem_keys, hall, hmem, mem_getUnique, mem_getUnique, AList.mem_keys]
      tauto

/-! ## Loading -/

/-- Names that are not there yet are read into the table. -/
theorem foldl_addName (names : List BaseName) (r : MooFolderImpl × List MooFile)
    (hnodup : names.Nodup) (hnonempty : [] ∉ names) (hnew : ∀ n ∈ names, n ∉ r.1.files)
    (hfiles : r.2.Perm r.1.fileList) (hnamed : ∀ e ∈ r.1.files.entries, e.2.name = e.1) : ∃ files nextId added,
      names.foldl addName r = ({ r.1 with files := files, nextId := nextId }, added) ∧
      added.Perm (files.entries.map Sigma.snd) ∧ (∀ e ∈ files.entries, e.2.name = e.1) ∧
      ∀ n, n ∈ files ↔ n ∈ names ∨ n ∈ r.1.files := by
  induction names generalizing r with
  | nil => exact ⟨_, _, _, rfl, hfiles, hnamed, by simp⟩
  | cons name names ih =>
    simp only [List.nodup_cons, List.mem_cons, not_or] at hnodup hnonempty
    rw [List.forall_mem_cons] at hnew
    have hfile : mooFileNew r.1.nextId name = some ⟨r.1.nextId, name⟩ :=
      if_neg (Ne.symm hnonempty.1)
    obtain ⟨files, nextId, added, heq, hadded, hnamed', hmem⟩ := ih (addName r name) hnodup.2 hnonempty.2
      (fun n hn => by
        simp only [addName, hfile, AList.mem_insert]
        rintro (rfl | hold)
        · exact hnodup.1 hn
        · exact hnew.2 n hn hold)
      (by
        simp only [addName, hfile]
        rw [fileList_insert hnew.1]
        exact hfiles.cons _)
      (by
        simp only [addName, hfile, AList.entries_insert_of_notMem hnew.1]
        exact List.forall_mem_cons.2 ⟨rfl, hnamed⟩)
    simp only [addName, hfile] at heq hmem
    refine ⟨files, nextId, added, by simpa only [List.foldl_cons, addName, hfile] using heq, hadded,
      hnamed', fun n => ?_⟩
    rw [hmem, AList.mem_insert, List.mem_cons]
    tauto

theorem new_right (path : BaseName) (listing : Listing) :
    (new path listing).Mirrored ∧ (new path listing).deleted = false ∧
      (new path listing).files.keys.Perm (dotDot :: listing.names) := by
  have hnodup : (dotDot :: listing.names).Nodup :=
    List.nodup_cons.2 ⟨listing.noParent, listing.nodup⟩
  obtain ⟨files, nextId, added, heq, hadded, hnamed, hmem⟩ :=
    foldl_addName (dotDot :: listing.names) (⟨path, ∅, false, true, false, 0, []⟩, []) hnodup
      (by simpa [dotDot] using listing.nonempty) (by simp) (by simp [fileList]) (by simp)
  have hkeys : files.keys.Perm (dotDot :: listing.names) := by
    refine (List.perm_ext_iff_of_nodup files.keys_nodup hnodup).2 fun n => ?_
    rw [← AList.mem_keys, hmem]
    simp
  have hne : added ≠ [] := by
    rintro rfl
    have := hkeys.length_eq
    have := hadded.length_eq
    simp_all [AList.keys, List.keys]
  have hnew : new path listing = ⟨path, files, false, true, false, nextId, [.filesAdded added]⟩ := by
    simp only [new, getNames, heq, emitFiles]
    rw [if_pos ⟨hne, trivial⟩]
    rfl
  rw [hnew]
  exact ⟨⟨rfl, hnamed, by simpa [replay, view, fileList] using hadded, by simp⟩, rfl, hkeys⟩

/-! ## Runs -/

theorem Mirrored.step {impl : MooFolderImpl} (h : impl.Mirrored) (e : FolderEvent)
    (he : impl.Allowed e) : (impl.step hash e).Mirrored := by
  have hidle (b : Bool) : Mirrored { impl with reloadIdle := b } :=
    ⟨h.proxy, h.named, h.mirror, h.deleted⟩
  have hchanged (name : BaseName) : (impl.fileChanged name).Mirrored := by
    unfold fileChanged
    split_ifs
    · exact h
    · exact hidle true
    · exact h
  cases e with
  | created name => exact h.fileCreated he
  | deleted name => exact h.fileDeleted name
  | changed name => exact hchanged name
  | error => exact hchanged impl.path
  | idle dir =>
    unfold MooFolderImpl.step
    split_ifs
    · exact (h.doReload dir).1
    · exact h
  | reload dir => exact ((hidle false).doReload dir).1
  | checkExists name exist =>
    simp only [MooFolderImpl.step, checkExists]
    split_ifs with hnew
    · refine h.fileCreated (AList.lookup_eq_none.1 ?_)
      simpa using (Bool.and_eq_true_iff.1 hnew).2
    · exact h.fileDeleted name
    · exact h

/-- A view that has seen the signals has the files of the folder, each name once, in every run that
creates no file which is there already. What is read first is the parent folder and the entries of
the directory. After a reload there are the entries only. -/
theorem view_right {path : BaseName} {listing : Listing} {impl : MooFolderImpl}
    (h : Machine.Reachable (MooFolderImpl.step hash) Allowed (new path listing) impl) :
    ((replay impl.signals).Perm impl.fileList ∧ ((replay impl.signals).map MooFile.name).Nodup) ∧
    (new path listing).files.keys.Perm (dotDot :: listing.names) ∧
    ∀ dir, impl.deleted = false → (impl.doReload hash (some dir)).deleted = false →
      (impl.doReload hash (some dir)).files.keys.Perm dir.names ∧
      ¬ (impl.doReload hash (some dir)).files.keys.Perm (dotDot :: dir.names) := by
  have hmirror : impl.Mirrored :=
    h.invariant (new_right path listing).1 fun _ e he hs => hs.step e he
  refine ⟨⟨hmirror.mirror, ?_⟩, (new_right path listing).2.2, fun dir hdel hstay => ?_⟩
  · have hkeys : impl.fileList.map MooFile.name = impl.files.keys := by
      rw [fileList, List.map_map]
      exact List.map_congr_left hmirror.named
    exact (hmirror.mirror.map _).nodup_iff.2 (hkeys ▸ impl.files.keys_nodup)
  · have hkeys := (hmirror.doReload (some dir)).2 dir rfl hdel hstay
    refine ⟨hkeys, fun hwrong => ?_⟩
    have := (hkeys.symm.trans hwrong).length_eq
    simp at this

/-- A directory with one entry, `a`. -/
def oneEntry : Listing := ⟨[[97]], by decide, by decide, by decide⟩

def tableOrder : HashOrder := ⟨id, fun _ => .refl _⟩

theorem view_right_two : ∃ impl : MooFolderImpl,
    impl.fileList.map MooFile.name = [[98], [97], dotDot] ∧
    ((replay impl.signals).Perm impl.fileList ∧ ((replay impl.signals).map MooFile.name).Nodup) ∧
    (new [47] oneEntry).files.keys.Perm (dotDot :: oneEntry.names) ∧
    ∀ dir, impl.deleted = false → (impl.doReload tableOrder (some dir)).deleted = false →
      (impl.doReload tableOrder (some dir)).files.keys.Perm dir.names ∧
      ¬ (impl.doReload tableOrder (some dir)).files.keys.Perm (dotDot :: dir.names) :=
  have hnew : [98] ∉ (new [47] oneEntry).files := by decide
  ⟨(new [47] oneEntry).step tableOrder (.created [98]), by decide,
    view_right (.step (e := FolderEvent.created [98]) .start hnew)⟩

/-- A reload loses the parent folder; a file that is created again is there twice for a view. -/
theorem view_wrong :
    (∃ impl : MooFolderImpl, Machine.Reachable (MooFolderImpl.step tableOrder) (fun _ _ => True)
        (new [47] oneEntry) impl ∧ impl = (new [47] oneEntry).doReload tableOrder (some oneEntry) ∧
      ¬ impl.files.keys.Perm (dotDot :: oneEntry.names)) ∧
    ∃ impl : MooFolderImpl, Machine.Reachable (MooFolderImpl.step tableOrder) (fun _ _ => True)
        (new [47] oneEntry) impl ∧ ¬ (replay impl.signals).Perm impl.fileList ∧
      ¬ ((replay impl.signals).map MooFile.name).Nodup := by
  refine ⟨⟨_, .step (e := FolderEvent.reload (some oneEntry)) .start trivial, rfl, ?_⟩,
    _, .step (e := FolderEvent.created [97]) .start trivial, ?_, ?_⟩
  · decide
  · intro hperm
    exact absurd hperm.length_eq (by decide)
  · decide

end MooFolderImpl

end Medit
