import Medit.Library.KeyedQueue
import Medit.Library.Machine

/-!
# The folders of a file system

`MooFileSystem` keeps the folders that are in use in one table, and those that are not in a queue with
another one. Memory is modelled by numbers: the `n`-th allocation is `n`, and what has been freed does
not come back.

## Main definitions

* `MooFileSystem` — the tables and what is allocated.
* `MooFileSystem.getFolder`, `MooFileSystem.folderFinalized`, `MooFileSystem.folderDeleted` —
  `_moo_file_system_get_folder`, `_moo_file_system_folder_finalized` and
  `_moo_file_system_folder_deleted`.
* `MooFileSystem.step` — what happens to a file system.
-/

namespace Medit

open Function

abbrev DirName := List UInt8

/-! ## Paths -/

/-- One component in the loop of `collapse_dots`. -/
def collapseDot (firstSlash : Bool) (comps : List DirName) (s : DirName) : List DirName :=
  if s = [] ∨ s = [46] then comps
  else if s = [46, 46] then
    if comps = [] ∧ firstSlash = true then comps
    else if comps ≠ [] then comps.dropLast
    else comps ++ [s]
  else comps ++ [s]

/-- `collapse_dots` -/
def collapseDots (path : DirName) : DirName :=
  let firstSlash := path.head? == some 47
  let comps := (path.splitOn 47).foldl (collapseDot firstSlash) []
  if comps = [] then if firstSlash then [47] else [46]
  else
    let normpath := [47].intercalate comps
    if firstSlash then 47 :: normpath else normpath

/-- `normalize_path` of a folder -/
def normalizePath (path : DirName) : DirName :=
  let normpath := collapseDots path
  if normpath.getLast? = some 47 then normpath else normpath ++ [47]

/-! ## Tables -/

/-- `FOLDERS_CACHE_SIZE` -/
def foldersCacheSize : ℕ := 10

/-- What the tables are about of a `MooFolderImpl`. -/
structure FolderCell where
  path : DirName
  deleted : Bool
  proxy : Option ℕ
deriving DecidableEq

/-- A `MooFolder`, with its references. -/
structure MooFolder where
  impl : ℕ
  refs : ℕ
deriving DecidableEq

/-- The tables of a file system and the memory. `cacheKeys` tells which `MooFolderImpl` the string
belongs to that is the key in the table of the cache, and `freed` lists what has been freed. -/
structure MooFileSystem where
  folders : DirName → Option ℕ
  cache : KeyedQueue DirName DirName
  cacheKeys : DirName → ℕ
  impls : ℕ → Option FolderCell
  proxies : ℕ → Option MooFolder
  freed : List ℕ
  next : ℕ

namespace MooFileSystem

/-- `_moo_file_system_init` -/
def init : MooFileSystem where
  folders _ := none
  cache := .empty
  cacheKeys _ := 0
  impls _ := none
  proxies _ := none
  freed := []
  next := 0

/-- `_moo_folder_impl_free` -/
def implFree (fs : MooFileSystem) (l : ℕ) : MooFileSystem :=
  { fs with impls := update fs.impls l none, freed := l :: fs.freed }

/-- `g_hash_table_insert` into the table of the cache, which keeps an old key. -/
def insertCache (fs : MooFileSystem) (path : DirName) (l : ℕ) : MooFileSystem :=
  { fs with
    cache := fs.cache.insert path l
    cacheKeys := if fs.cache.table path = none then update fs.cacheKeys path l else fs.cacheKeys }

/-- A folder of the cache is taken out of it and freed. -/
def dropCached (fs : MooFileSystem) (l : ℕ) (path : DirName) : MooFileSystem :=
  { fs with cache := (fs.cache.remove path).unlink l }.implFree l

/-- The end of `add_folder_cache`, where the cache has become too long. -/
def evict (fs : MooFileSystem) : MooFileSystem :=
  if foldersCacheSize < fs.cache.links.length then
    match fs.cache.links.getLast? with
    | none => fs
    | some old =>
      match fs.impls old with
      | none => fs
      | some cell => fs.dropCached old cell.path
  else fs

/-- `add_folder_cache` -/
def addFolderCache (fs : MooFileSystem) (l : ℕ) (path : DirName) : MooFileSystem :=
  ({ fs with cache := fs.cache.pushHead l path }.insertCache path l).evict

/-- `_moo_file_system_folder_finalized` of the folder of `l` -/
def folderFinalized (fs : MooFileSystem) (l : ℕ) : MooFileSystem :=
  match fs.impls l with
  | none => fs
  | some cell =>
    let fs := { fs with
      impls := update fs.impls l (some { cell with proxy := none })
      folders := update fs.folders cell.path none }
    if cell.deleted then fs.implFree l else fs.addFolderCache l cell.path

/-- `moo_folder_deleted`, with `_moo_file_system_folder_deleted` -/
def folderDeleted (fs : MooFileSystem) (l : ℕ) : MooFileSystem :=
  match fs.impls l with
  | none => fs
  | some cell =>
    let fs := { fs with impls := update fs.impls l (some { cell with deleted := true }) }
    if cell.proxy.isSome then { fs with folders := update fs.folders cell.path none }
    else fs.dropCached l cell.path

/-- `_moo_folder_new_with_impl`, with the entry in the table -/
def newWithImpl (fs : MooFileSystem) (l : ℕ) (cell : FolderCell) (normPath : DirName) (f : ℕ) :
    MooFileSystem :=
  { fs with
    impls := update fs.impls l (some { cell with proxy := some f })
    proxies := update fs.proxies f (some ⟨l, 1⟩)
    folders := update fs.folders normPath (some f)
    next := f + 1 }

/-- `_moo_file_system_get_folder`, with whether the directory can be opened -/
def getFolder (fs : MooFileSystem) (path : DirName) (isDir : Bool) : MooFileSystem × Option ℕ :=
  if path.head? ≠ some 47 then (fs, none)
  else
    let normPath := normalizePath path
    match fs.folders normPath with
    | some f =>
      ({ fs with
        proxies := update fs.proxies f ((fs.proxies f).map fun o => { o with refs := o.refs + 1 }) },
        some f)
    | none =>
      match fs.cache.table normPath with
      | some l =>
        match fs.impls l with
        | none => (fs, none)
        | some cell =>
          let fs := { fs with cache := (fs.cache.remove cell.path).unlink l }
          (fs.newWithImpl l cell normPath fs.next, some fs.next)
      | none =>
        if isDir then
          (fs.newWithImpl fs.next ⟨normPath, false, none⟩ normPath (fs.next + 1), some (fs.next + 1))
        else (fs, none)

/-- `g_object_unref` of a folder, with `moo_folder_dispose` -/
def unref (fs : MooFileSystem) (f : ℕ) : MooFileSystem :=
  match fs.proxies f with
  | none => fs
  | some o =>
    if 1 < o.refs then { fs with proxies := update fs.proxies f (some { o with refs := o.refs - 1 }) }
    else { fs.folderFinalized o.impl with proxies := update fs.proxies f none }

end MooFileSystem

/-- What happens to a file system: a folder is asked for, a reference to one is dropped, and the
directory of one is seen to be gone. -/
inductive FileSystemEvent
  | getFolder (path : DirName) (isDir : Bool)
  | unref (f : ℕ)
  | deleted (l : ℕ)

namespace MooFileSystem

/-- One thing that happens. That a directory is gone is noticed once, as its monitor is stopped. -/
def step (fs : MooFileSystem) : FileSystemEvent → MooFileSystem
  | .getFolder path isDir => (fs.getFolder path isDir).1
  | .unref f => fs.unref f
  | .deleted l =>
    match fs.impls l with
    | none => fs
    | some cell => if cell.deleted then fs else fs.folderDeleted l

/-- A folder that is in use, and that has not been deleted. -/
def InUse (fs : MooFileSystem) (f : ℕ) (path : DirName) : Prop :=
  ∃ o cell, fs.proxies f = some o ∧ fs.impls o.impl = some cell ∧ cell.deleted = false ∧
    cell.path = path

/-- The last reference to a deleted folder is not dropped while another folder has its path. -/
def Allowed (fs : MooFileSystem) : FileSystemEvent → Prop
  | .unref f => ∀ o cell, fs.proxies f = some o → o.refs ≤ 1 → fs.impls o.impl = some cell →
      cell.deleted = true → ∀ g, ¬ fs.InUse g cell.path
  | _ => True

/-! ## What holds in every state -/

/-- The tables and the memory agree, but for the size of the cache. -/
structure Sound (fs : MooFileSystem) : Prop where
  folders : ∀ p f, fs.folders p = some f ↔ fs.InUse f p
  proxy : ∀ f o, fs.proxies f = some o → ∃ cell, fs.impls o.impl = some cell ∧ cell.proxy = some f
  impl : ∀ l cell f, fs.impls l = some cell → cell.proxy = some f →
    ∃ o, fs.proxies f = some o ∧ o.impl = l
  cached : ∀ l, l ∈ fs.cache.links ↔ ∃ cell, fs.impls l = some cell ∧ cell.proxy = none
  cell : ∀ l cell, fs.impls l = some cell → cell.proxy = none →
    cell.deleted = false ∧ fs.cache.data l = cell.path
  indexed : fs.cache.Indexed id
  apart : ∀ p f, fs.folders p = some f → fs.cache.table p = none
  keys : ∀ p l, fs.cache.table p = some l → fs.cacheKeys p = l
  freed : ∀ l ∈ fs.freed, fs.impls l = none ∧ l < fs.next
  nodup : fs.freed.Nodup
  allocated : (∀ l cell, fs.impls l = some cell → l < fs.next) ∧
    ∀ f o, fs.proxies f = some o → f < fs.next

namespace Sound

variable {fs : MooFileSystem}

/-- The folder of a path in the cache. -/
theorem table_cell (h : fs.Sound) {l : ℕ} {p : DirName} (hl : fs.cache.table p = some l) :
    fs.impls l = some ⟨p, false, none⟩ := by
  obtain ⟨hmem, hdata⟩ := (h.indexed.table_iff _ _).1 hl
  obtain ⟨cell, hcell, hproxy⟩ := (h.cached l).1 hmem
  obtain ⟨hdel, hpath⟩ := h.cell l cell hcell hproxy
  obtain ⟨path, deleted, proxy⟩ := cell
  simp_all

theorem proxies_next (h : fs.Sound) {f : ℕ} (hf : fs.next ≤ f) : fs.proxies f = none := by
  cases ho : fs.proxies f with
  | none => rfl
  | some o => exact absurd (h.allocated.2 f o ho) (Nat.not_lt.2 hf)

theorem impls_next (h : fs.Sound) : fs.impls fs.next = none := by
  cases hcell : fs.impls fs.next with
  | none => rfl
  | some cell => exact absurd (h.allocated.1 _ cell hcell) (Nat.lt_irrefl _)

/-- A folder is taken out of the cache, and nobody has it. -/
theorem detach (h : fs.Sound) {l : ℕ} {p : DirName} (hl : fs.cache.table p = some l) :
    Sound { fs with
      cache := (fs.cache.remove p).unlink l
      impls := update fs.impls l none } ∧ l ∉ fs.freed ∧ l < fs.next := by
  have hcell := h.table_cell hl
  obtain ⟨hmem, hdata⟩ := (h.indexed.table_iff _ _).1 hl
  -- no folder is in use with this one
  have hother (f : ℕ) (o : MooFolder) (ho : fs.proxies f = some o) : o.impl ≠ l := by
    rintro rfl
    obtain ⟨cell, hcell', hproxy⟩ := h.proxy f o ho
    simp_all
  have htable (q : DirName) : fs.cache.table q = some l → q = p := by
    intro hq
    exact ((h.indexed.table_iff _ _).1 hq).2.symm.trans hdata
  obtain ⟨hfolders, hproxy, himpl, hcached, hdata', hindexed, hapart, hkeys, hfreed, hnodup,
    hallocated⟩ := h
  have hindexed' := hindexed.remove hl
  refine ⟨?_, fun hl => by simp [(hfreed l hl).1] at hcell, hallocated.1 l _ hcell⟩
  constructor
  · intro q f
    simp only [InUse, update_apply] at hfolders ⊢
    grind
  · simp only [update_apply]
    grind
  · simp only [update_apply]
    grind
  · simp only [update_apply, KeyedQueue.unlink, KeyedQueue.remove, hindexed.nodup.mem_erase_iff]
    grind
  · simp only [update_apply, KeyedQueue.unlink, KeyedQueue.remove]
    grind
  · exact hindexed'
  · simp only [update_apply, KeyedQueue.unlink, KeyedQueue.remove]
    grind
  · simp only [update_apply, KeyedQueue.unlink, KeyedQueue.remove]
    grind
  · simp only [update_apply]
    grind
  · exact hnodup
  · simp only [update_apply]
    grind

/-- What has been taken out is freed. -/
theorem dropCached (h : fs.Sound) {l : ℕ} {p : DirName} (hl : fs.cache.table p = some l) :
    (fs.dropCached l p).Sound := by
  obtain ⟨hdetach, hnot, hlt⟩ := h.detach hl
  refine { hdetach with freed := ?_, nodup := List.nodup_cons.2 ⟨hnot, h.nodup⟩ }
  intro l' hl'
  rcases List.mem_cons.1 hl' with rfl | hl'
  · exact ⟨update_self .., hlt⟩
  · exact hdetach.freed l' hl'

/-- The last reference to a folder is dropped, which goes into the cache. -/
theorem pushCache (h : fs.Sound) {f : ℕ} {o : MooFolder} {cell : FolderCell}
    (ho : fs.proxies f = some o) (hcell : fs.impls o.impl = some cell)
    (hdel : cell.deleted = false) :
    Sound ({ fs with
      proxies := update fs.proxies f none
      impls := update fs.impls o.impl (some { cell with proxy := none })
      folders := update fs.folders cell.path none
      cache := fs.cache.pushHead o.impl cell.path }.insertCache cell.path o.impl) := by
  have hproxy : cell.proxy = some f := by
    obtain ⟨cell', hcell', hproxy⟩ := h.proxy f o ho
    simp_all
  have hin : fs.folders cell.path = some f := (h.folders _ _).2 ⟨o, cell, ho, hcell, hdel, rfl⟩
  have hnone := h.apart _ _ hin
  have hnot : o.impl ∉ fs.cache.links := by
    rw [h.cached]
    rintro ⟨cell', hcell', hproxy'⟩
    simp_all
  obtain ⟨hfolders, hproxies, himpl, hcached, hdata, hindexed, hapart, hkeys, hfreed, hnodup,
    hallocated⟩ := h
  have hindexed' := hindexed.pushHead (a := cell.path) hnot hnone
  simp only [insertCache]
  constructor
  · intro q g
    simp only [InUse, update_apply] at hfolders ⊢
    grind
  · simp only [update_apply]
    grind
  · simp only [update_apply]
    grind
  · simp only [update_apply, KeyedQueue.pushHead, KeyedQueue.insert]
    grind
  · simp only [update_apply, KeyedQueue.pushHead, KeyedQueue.insert]
    grind
  · exact hindexed'
  · simp only [update_apply, KeyedQueue.pushHead, KeyedQueue.insert]
    grind
  · simp only [update_apply, KeyedQueue.pushHead, KeyedQueue.insert]
    grind
  · simp only [update_apply]
    grind
  · exact hnodup
  · simp only [update_apply]
    grind

/-- The last reference to a deleted folder is dropped, when no other folder has its path. -/
theorem freeDeleted (h : fs.Sound) {f : ℕ} {o : MooFolder} {cell : FolderCell}
    (ho : fs.proxies f = some o) (hcell : fs.impls o.impl = some cell)
    (hdel : cell.deleted = true) (hnone : ∀ g, ¬ fs.InUse g cell.path) :
    Sound (implFree { fs with
      proxies := update fs.proxies f none
      impls := update fs.impls o.impl (some { cell with proxy := none })
      folders := update fs.folders cell.path none } o.impl) := by
  have hproxy : cell.proxy = some f := by
    obtain ⟨cell', hcell', hproxy⟩ := h.proxy f o ho
    simp_all
  have hfree (g : ℕ) : fs.folders cell.path ≠ some g := fun hg => hnone g ((h.folders _ _).1 hg)
  have hnot : o.impl ∉ fs.cache.links := by
    rw [h.cached]
    rintro ⟨cell', hcell', hproxy'⟩
    simp_all
  obtain ⟨hfolders, hproxies, himpl, hcached, hdata, hindexed, hapart, hkeys, hfreed, hnodup,
    hallocated⟩ := h
  simp only [implFree, update_idem]
  constructor
  · intro q g
    simp only [InUse, update_apply] at hfolders ⊢
    grind
  · simp only [update_apply]
    grind
  · simp only [update_apply]
    grind
  · simp only [update_apply]
    grind
  · simp only [update_apply]
    grind
  · exact hindexed
  · simp only [update_apply]
    grind
  · exact hkeys
  · simp only [update_apply]
    grind
  · grind
  · simp only [update_apply]
    grind

/-- The directory of a folder that is in use is gone. -/
theorem setDeleted (h : fs.Sound) {l f : ℕ} {cell : FolderCell} (hcell : fs.impls l = some cell)
    (hproxy : cell.proxy = some f) (hdel : cell.deleted = false) :
    Sound { fs with
      impls := update fs.impls l (some { cell with deleted := true })
      folders := update fs.folders cell.path none } := by
  obtain ⟨o, ho, rfl⟩ := h.impl l cell f hcell hproxy
  have hin : fs.folders cell.path = some f := (h.folders _ _).2 ⟨o, cell, ho, hcell, hdel, rfl⟩
  obtain ⟨hfolders, hproxies, himpl, hcached, hdata, hindexed, hapart, hkeys, hfreed, hnodup,
    hallocated⟩ := h
  constructor
  · intro q g
    simp only [InUse, update_apply] at hfolders ⊢
    grind
  · simp only [update_apply]
    grind
  · simp only [update_apply]
    grind
  · simp only [update_apply]
    grind
  · simp only [update_apply]
    grind
  · exact hindexed
  · simp only [update_apply]
    grind
  · exact hkeys
  · simp only [update_apply]
    grind
  · exact hnodup
  · simp only [update_apply]
    grind

/-- A folder that nobody has is used for a path that has none. -/
theorem newWithImpl (h : fs.Sound) {l f : ℕ} {p : DirName} (hl : fs.impls l = none)
    (hfreed : l ∉ fs.freed) (hlt : l < f + 1) (hf : fs.next ≤ f) (hnone : fs.folders p = none)
    (htable : fs.cache.table p = none) :
    (fs.newWithImpl l ⟨p, false, none⟩ p f).Sound := by
  have hnew := h.proxies_next hf
  obtain ⟨hfolders, hproxies, himpl, hcached, hdata', hindexed, hapart, hkeys, hfreed', hnodup,
    hallocated⟩ := h
  simp only [MooFileSystem.newWithImpl]
  constructor
  · intro q g
    simp only [InUse, update_apply] at hfolders ⊢
    by_cases hg : g = f
    · subst hg
      simp
      grind
    · simp only [hg, if_false]
      grind
  · intro g o ho
    simp only [update_apply] at ho ⊢
    by_cases hg : g = f
    · subst hg
      obtain rfl : (⟨l, 1⟩ : MooFolder) = o := by simpa using ho
      simp
    · rw [if_neg hg] at ho
      grind
  · intro l' cell g hcell' hproxy
    simp only [update_apply] at hcell' ⊢
    by_cases hg : g = f
    · subst hg
      simp
      grind
    · simp only [hg, if_false]
      grind
  · simp only [update_apply]
    grind
  · simp only [update_apply]
    grind
  · exact hindexed
  · simp only [update_apply]
    grind
  · exact hkeys
  · simp only [update_apply]
    grind
  · exact hnodup
  · simp only [update_apply]
    grind

/-- A folder is taken out of the cache to be used. -/
theorem takeCached (h : fs.Sound) {l : ℕ} {p : DirName} (hl : fs.cache.table p = some l)
    (hnone : fs.folders p = none) :
    Sound ({ fs with cache := (fs.cache.remove p).unlink l }.newWithImpl l ⟨p, false, none⟩ p
      fs.next) := by
  obtain ⟨hdetach, hnot, hlt⟩ := h.detach hl
  have hsound := hdetach.newWithImpl (l := l) (f := fs.next) (p := p) (update_self ..) hnot
    (by omega) (Nat.le_refl _) hnone (update_self ..)
  simpa [MooFileSystem.newWithImpl] using hsound

/-- Only the number of references changes. -/
theorem setRefs (h : fs.Sound) {f : ℕ} {o : MooFolder} (ho : fs.proxies f = some o) (n : ℕ) :
    Sound { fs with proxies := update fs.proxies f (some { o with refs := n }) } := by
  obtain ⟨hfolders, hproxies, himpl, hcached, hdata', hindexed, hapart, hkeys, hfreed, hnodup,
    hallocated⟩ := h
  constructor
  · intro q g
    simp only [InUse, update_apply] at hfolders ⊢
    grind
  · simp only [update_apply]
    grind
  · simp only [update_apply]
    grind
  · exact hcached
  · exact hdata'
  · exact hindexed
  · exact hapart
  · exact hkeys
  · exact hfreed
  · exact hnodup
  · simp only [update_apply]
    grind

/-- The cache does not become too long. -/
theorem evict (h : fs.Sound) (hsize : fs.cache.links.length ≤ foldersCacheSize + 1) :
    fs.evict.Sound ∧ fs.evict.cache.links.length ≤ foldersCacheSize := by
  unfold MooFileSystem.evict
  split_ifs with hlong
  · obtain ⟨old, hold⟩ : ∃ old, fs.cache.links.getLast? = some old := by
      rw [← Option.isSome_iff_exists, List.getLast?_isSome]
      rintro hnil
      simp [hnil] at hlong
    have hmem := List.mem_of_getLast? hold
    obtain ⟨cell, hcell, hproxy⟩ := (h.cached old).1 hmem
    have htable := (h.indexed.table_iff cell.path old).2 ⟨hmem, (h.cell old cell hcell hproxy).2⟩
    simp only [hold, hcell]
    refine ⟨h.dropCached htable, ?_⟩
    simp only [MooFileSystem.dropCached, implFree, KeyedQueue.unlink, KeyedQueue.remove,
      List.length_erase_of_mem hmem]
    omega
  · exact ⟨h, by omega⟩

theorem evict_proxies (fs : MooFileSystem) (proxies : ℕ → Option MooFolder) :
    { fs.evict with proxies := proxies } = MooFileSystem.evict { fs with proxies := proxies } := by
  unfold MooFileSystem.evict
  dsimp only
  split_ifs
  · cases fs.cache.links.getLast? with
    | none => rfl
    | some old =>
      cases hcell : fs.impls old with
      | none => simp only [hcell]
      | some cell => simp only [hcell, MooFileSystem.dropCached, implFree]
  · rfl

theorem kept_proxies (fs : MooFileSystem) (proxies : ℕ → Option MooFolder)
    (h : (MooFileSystem.evict { fs with proxies := proxies }).Sound ∧
      (MooFileSystem.evict { fs with proxies := proxies }).cache.links.length ≤ foldersCacheSize) :
    Sound { fs.evict with proxies := proxies } ∧
      fs.evict.cache.links.length ≤ foldersCacheSize := by
  rw [← evict_proxies] at h
  exact h

theorem unref (h : fs.Sound) (hsize : fs.cache.links.length ≤ foldersCacheSize) {f : ℕ}
    (hf : fs.Allowed (.unref f)) :
    (fs.unref f).Sound ∧ (fs.unref f).cache.links.length ≤ foldersCacheSize := by
  unfold MooFileSystem.unref
  cases ho : fs.proxies f with
  | none => exact ⟨h, hsize⟩
  | some o =>
    dsimp only
    split_ifs with hrefs
    · exact ⟨h.setRefs ho _, hsize⟩
    · obtain ⟨cell, hcell, -⟩ := h.proxy f o ho
      simp only [folderFinalized, hcell]
      split_ifs with hdel
      · exact ⟨h.freeDeleted ho hcell hdel (hf o cell ho (by omega) hcell hdel), hsize⟩
      · have hpush := h.pushCache ho hcell (by simpa using hdel)
        have hkept := hpush.evict (by simpa [insertCache, KeyedQueue.pushHead, KeyedQueue.insert])
        exact kept_proxies (insertCache { fs with
          impls := update fs.impls o.impl (some { cell with proxy := none })
          folders := update fs.folders cell.path none
          cache := fs.cache.pushHead o.impl cell.path } cell.path o.impl) _ hkept

theorem folderDeleted (h : fs.Sound) (hsize : fs.cache.links.length ≤ foldersCacheSize) {l : ℕ}
    {cell : FolderCell} (hcell : fs.impls l = some cell) (hdel : cell.deleted = false) :
    (fs.folderDeleted l).Sound ∧ (fs.folderDeleted l).cache.links.length ≤ foldersCacheSize := by
  unfold MooFileSystem.folderDeleted
  simp only [hcell]
  cases hproxy : cell.proxy with
  | some f => exact ⟨by simpa [hproxy] using h.setDeleted hcell hproxy hdel, hsize⟩
  | none =>
    have hmem := (h.cached l).2 ⟨cell, hcell, hproxy⟩
    have htable := (h.indexed.table_iff cell.path l).2 ⟨hmem, (h.cell l cell hcell hproxy).2⟩
    have hdrop := h.dropCached htable
    simp only [Option.isSome_none, Bool.false_eq_true, if_false, MooFileSystem.dropCached, implFree,
      update_idem] at hdrop ⊢
    exact ⟨hdrop, (List.length_erase_le).trans hsize⟩

/-- What is given for a path is the folder in use that it has. -/
theorem getFolder (h : fs.Sound) (hsize : fs.cache.links.length ≤ foldersCacheSize)
    (path : DirName) (isDir : Bool) :
    (fs.getFolder path isDir).1.Sound ∧
    (fs.getFolder path isDir).1.cache.links.length ≤ foldersCacheSize ∧
    (∀ f, (fs.getFolder path isDir).2 = some f →
      (fs.getFolder path isDir).1.InUse f (normalizePath path)) ∧
    ∀ g, path.head? = some 47 → fs.InUse g (normalizePath path) →
      (fs.getFolder path isDir).2 = some g := by
  by_cases habs : path.head? = some 47
  · cases hfolder : fs.folders (normalizePath path) with
    | some f =>
      obtain ⟨o, cell, ho, hcell, hdel, hpath⟩ := (h.folders _ _).1 hfolder
      have hrefs := h.setRefs ho (o.refs + 1)
      have heq : fs.getFolder path isDir =
          ({ fs with proxies := update fs.proxies f (some { o with refs := o.refs + 1 }) }, some f) := by
        simp [MooFileSystem.getFolder, habs, hfolder, ho]
      rw [heq]
      refine ⟨hrefs, hsize, fun g hg => ?_, fun g _ hg => ?_⟩
      · obtain rfl := Option.some.inj hg
        exact (hrefs.folders _ _).1 hfolder
      · exact hfolder.symm.trans ((h.folders _ g).2 hg)
    | none =>
      have hunused (g : ℕ) : ¬ fs.InUse g (normalizePath path) := fun hg => by
        simp [(h.folders _ g).2 hg] at hfolder
      cases htable : fs.cache.table (normalizePath path) with
      | some l =>
        have htake := h.takeCached htable hfolder
        have heq : fs.getFolder path isDir =
            ({ fs with cache := (fs.cache.remove (normalizePath path)).unlink l }.newWithImpl l
              ⟨normalizePath path, false, none⟩ (normalizePath path) fs.next, some fs.next) := by
          simp [MooFileSystem.getFolder, habs, hfolder, htable, h.table_cell htable]
        rw [heq]
        refine ⟨htake, (List.length_erase_le).trans hsize, fun g hg => ?_,
          fun g _ hg => absurd hg (hunused g)⟩
        obtain rfl := Option.some.inj hg
        exact (htake.folders _ _).1 (update_self ..)
      | none =>
        cases isDir with
        | false =>
          have heq : fs.getFolder path false = (fs, none) := by
            simp [MooFileSystem.getFolder, hfolder, htable]
          rw [heq]
          exact ⟨h, hsize, by simp, fun g _ hg => absurd hg (hunused g)⟩
        | true =>
          have hnew := h.newWithImpl (f := fs.next + 1) h.impls_next
            (fun hl => Nat.lt_irrefl _ (h.freed _ hl).2) (by omega) (by omega) hfolder htable
          have heq : fs.getFolder path true = (fs.newWithImpl fs.next
              ⟨normalizePath path, false, none⟩ (normalizePath path) (fs.next + 1),
                some (fs.next + 1)) := by
            simp [MooFileSystem.getFolder, habs, hfolder, htable]
          rw [heq]
          refine ⟨hnew, hsize, fun g hg => ?_, fun g _ hg => absurd hg (hunused g)⟩
          obtain rfl := Option.some.inj hg
          exact (hnew.folders _ _).1 (update_self ..)
  · have heq : fs.getFolder path isDir = (fs, none) := by simp [MooFileSystem.getFolder, habs]
    rw [heq]
    exact ⟨h, hsize, by simp, fun g hg => absurd hg habs⟩

end Sound

theorem sound_init : init.Sound := by
  have hindexed : init.cache.Indexed id := KeyedQueue.Indexed.empty
  constructor
  case indexed => exact hindexed
  all_goals simp [init, InUse, KeyedQueue.empty]

theorem sound_of_run {fs : MooFileSystem} (h : Machine.Reachable MooFileSystem.step Allowed init fs) :
    fs.Sound ∧ fs.cache.links.length ≤ foldersCacheSize := by
  refine h.invariant (P := fun fs => fs.Sound ∧ fs.cache.links.length ≤ foldersCacheSize)
    ⟨sound_init, by simp [init, KeyedQueue.empty]⟩ ?_
  rintro fs e he ⟨hs, hsize⟩
  cases e with
  | getFolder path isDir =>
    obtain ⟨hsound, hlen, -⟩ := hs.getFolder hsize path isDir
    exact ⟨hsound, hlen⟩
  | unref f => exact hs.unref hsize he
  | deleted l =>
    cases hcell : fs.impls l with
    | none => simpa only [MooFileSystem.step, hcell] using ⟨hs, hsize⟩
    | some cell =>
      simp only [MooFileSystem.step, hcell]
      split_ifs with hdel
      · exact ⟨hs, hsize⟩
      · exact hs.folderDeleted hsize hcell (by simpa using hdel)

/-! ## Main results -/

/-- What the tables are to be. -/
structure Tidy (fs : MooFileSystem) : Prop where
  one : ∀ f g p, fs.InUse f p → fs.InUse g p → f = g
  folders : ∀ p f, fs.folders p = some f ↔ fs.InUse f p
  cache : ∀ p l, fs.cache.table p = some l ↔ l ∈ fs.cache.links ∧ fs.impls l = some ⟨p, false, none⟩
  queue : ∀ l ∈ fs.cache.links, ∃ p, fs.impls l = some ⟨p, false, none⟩
  onePerPath : fs.cache.links.Nodup
  size : fs.cache.links.length ≤ foldersCacheSize
  apart : ∀ p f o, fs.folders p = some f → fs.proxies f = some o → o.impl ∉ fs.cache.links
  freed : fs.freed.Nodup
  cacheAlive : ∀ p l, fs.cache.table p = some l → l ∉ fs.freed ∧ fs.cacheKeys p ∉ fs.freed
  foldersAlive : ∀ p f, fs.folders p = some f → ∃ o, fs.proxies f = some o ∧ o.impl ∉ fs.freed

theorem Sound.tidy {fs : MooFileSystem} (h : fs.Sound)
    (hsize : fs.cache.links.length ≤ foldersCacheSize) : fs.Tidy := by
  have hqueue (l : ℕ) (hl : l ∈ fs.cache.links) : fs.impls l = some ⟨fs.cache.data l, false, none⟩ :=
    h.table_cell ((h.indexed.table_iff _ _).2 ⟨hl, rfl⟩)
  have halive (l : ℕ) (cell : FolderCell) (hcell : fs.impls l = some cell) : l ∉ fs.freed := by
    intro hl
    simp [(h.freed l hl).1] at hcell
  refine ⟨?_, h.folders, ?_, fun l hl => ⟨_, hqueue l hl⟩, h.indexed.nodup, hsize, ?_, h.nodup, ?_, ?_⟩
  · intro f g p hf hg
    exact Option.some.inj (((h.folders p f).2 hf).symm.trans ((h.folders p g).2 hg))
  · intro p l
    constructor
    · exact fun hl => ⟨((h.indexed.table_iff _ _).1 hl).1, h.table_cell hl⟩
    · rintro ⟨hl, hcell⟩
      refine (h.indexed.table_iff _ _).2 ⟨hl, ?_⟩
      simpa [hcell] using (hqueue l hl).symm
  · intro p f o _ ho hmem
    obtain ⟨cell, hcell, hproxy⟩ := h.proxy f o ho
    simp [hqueue _ hmem] at hcell
    simp [← hcell] at hproxy
  · intro p l hl
    have hnot := halive l _ (h.table_cell hl)
    exact ⟨hnot, by rwa [h.keys p l hl]⟩
  · intro p f hf
    obtain ⟨o, cell, ho, hcell, -⟩ := (h.folders p f).1 hf
    exact ⟨o, ho, halive _ cell hcell⟩

/-- The tables are right, and a folder that is asked for is the one in use for the path, in every run
that drops no deleted folder while another one of its path is in use. -/
theorem tables_right {fs : MooFileSystem} (h : Machine.Reachable MooFileSystem.step Allowed init fs) :
    fs.Tidy ∧ ∀ path isDir,
      (∀ f, (fs.getFolder path isDir).2 = some f →
        (fs.getFolder path isDir).1.InUse f (normalizePath path)) ∧
      ∀ g, path.head? = some 47 → fs.InUse g (normalizePath path) →
        (fs.getFolder path isDir).2 = some g := by
  obtain ⟨hsound, hsize⟩ := sound_of_run h
  exact ⟨hsound.tidy hsize, fun path isDir => (hsound.getFolder hsize path isDir).2.2⟩

/-- The directory `/a` is opened, it is gone and comes back, and it is opened again. -/
def reopened : MooFileSystem :=
  ((init.step (.getFolder [47, 97] true)).step (.deleted 0)).step (.getFolder [47, 97] true)

theorem reachable_reopened {allowed : MooFileSystem → FileSystemEvent → Prop}
    (h : ∀ fs path isDir, allowed fs (.getFolder path isDir)) (h' : ∀ fs l, allowed fs (.deleted l)) :
    Machine.Reachable MooFileSystem.step allowed init reopened :=
  .step (.step (.step .start (h _ _ _)) (h' _ _)) (h _ _ _)

theorem tables_right_reopened : reopened.Tidy ∧ ∀ path isDir,
      (∀ f, (reopened.getFolder path isDir).2 = some f →
        (reopened.getFolder path isDir).1.InUse f (normalizePath path)) ∧
      ∀ g, path.head? = some 47 → reopened.InUse g (normalizePath path) →
        (reopened.getFolder path isDir).2 = some g :=
  tables_right (reachable_reopened (fun _ _ _ => trivial) fun _ _ => trivial)

/-- The user of the deleted folder lets go: the folder that is in use loses its entry, and the next
one who asks is given another. -/
theorem tables_wrong : ∃ fs : MooFileSystem,
    Machine.Reachable MooFileSystem.step (fun _ _ => True) init fs ∧ fs = reopened.unref 1 ∧
    fs.InUse 3 [47, 97, 47] ∧ fs.folders [47, 97, 47] = none ∧
    (fs.getFolder [47, 97] true).2 = some 5 ∧
    (fs.getFolder [47, 97] true).1.InUse 3 [47, 97, 47] ∧
    (fs.getFolder [47, 97] true).1.InUse 5 [47, 97, 47] := by
  refine ⟨reopened.unref 1, .step (e := FileSystemEvent.unref 1)
    (reachable_reopened (fun _ _ _ => trivial) fun _ _ => trivial) trivial, rfl, ?_⟩
  refine ⟨⟨⟨2, 1⟩, ⟨[47, 97, 47], false, some 3⟩, ?_⟩, ?_, ?_,
    ⟨⟨2, 1⟩, ⟨[47, 97, 47], false, some 3⟩, ?_⟩, ⟨⟨4, 1⟩, ⟨[47, 97, 47], false, some 5⟩, ?_⟩⟩ <;> decide

end MooFileSystem

end Medit
