import Mathlib.Data.List.Nodup
import Mathlib.Logic.Function.Basic
import Medit.Library.Log
import Medit.Library.Machine

/-!
# The cache of file lists

Translation of the cache in `mooutils/moofileindex.cpp`. The files of a root are listed in a thread,
and whoever has asked for them meanwhile is called when the list lands in the main loop. A list is
known by the number of its build, and a callback by the number of its call of `_moo_file_index_get`.

## Main definitions

* `FileIndex` — the cache, the builds that run, and the callbacks that are being called.
* `FileIndex.step` — what happens to it.
* `FileIndex.Allowed` — nothing is forgotten that is still waited for.

## Main results

* `FileIndex.callbacks_right` — every callback is called once, with a new list that is alive, when
  nothing is forgotten that is waited for.
-/

namespace Medit

/-- `MOO_FILE_INDEX_MAX_AGE_SEC * G_USEC_PER_SEC` -/
def mooFileIndexMaxAge : ℤ := 5 * 1000000

abbrev IndexRoot := List UInt8

/-- The entry of a root: its list, when it landed, and the callbacks that wait for the next one. -/
structure CacheEntry where
  files : Option ℕ
  builtAt : ℤ
  refreshing : Bool
  waiters : Option (List ℕ)

/-- The loop of `refresh_done` over the callbacks of a root. -/
structure Calling where
  root : IndexRoot
  files : ℕ
  waiters : List ℕ

/-- What has happened. -/
inductive IndexNote
  | asked (call : ℕ) (root : IndexRoot)
  | started (files : ℕ) (root : IndexRoot)
  | landed (files : ℕ) (root : IndexRoot)
  | called (call files : ℕ)
  | forgot (root : IndexRoot)
deriving DecidableEq

/-- The cache. `builds` has the lists that are being built, and `freed` those whose last reference of
the cache is gone; `nextFiles` and `nextCall` are the next numbers. -/
structure FileIndex where
  cache : IndexRoot → Option CacheEntry
  builds : List (ℕ × IndexRoot)
  calling : Option Calling
  freed : List ℕ
  nextFiles : ℕ
  nextCall : ℕ
  log : List IndexNote

namespace FileIndex

/-- Before anything is asked for. -/
def init : FileIndex := ⟨fun _ => none, [], none, [], 0, 0, []⟩

/-- `g_new0 (CacheEntry, 1)` -/
def newEntry : CacheEntry := ⟨none, 0, false, none⟩

def setEntry (w : FileIndex) (root : IndexRoot) (entry : Option CacheEntry) : FileIndex :=
  { w with cache := Function.update w.cache root entry }

/-- The first part of `start_refresh`: the callback waits. -/
def addWaiter (w : FileIndex) (root : IndexRoot) (entry : CacheEntry) : FileIndex :=
  let waiters := entry.waiters.getD [] ++ [w.nextCall]
  { w.setEntry root (some { entry with waiters := some waiters }) with
    nextCall := w.nextCall + 1
    log := w.log ++ [.asked w.nextCall root] }

/-- The rest of `start_refresh`. -/
def startBuild (w : FileIndex) (root : IndexRoot) : FileIndex :=
  match w.cache root with
  | none => w
  | some entry =>
    if entry.refreshing then w
    else
      { w.setEntry root (some { entry with refreshing := true }) with
        builds := w.builds ++ [(w.nextFiles, root)]
        nextFiles := w.nextFiles + 1
        log := w.log ++ [.started w.nextFiles root] }

/-- `start_refresh` -/
def startRefresh (w : FileIndex) (root : IndexRoot) (entry : CacheEntry) (func : Bool) : FileIndex :=
  (if func then w.addWaiter root entry else w.setEntry root (some entry)).startBuild root

/-- `_moo_file_index_get`, with a callback or without one. -/
def get (w : FileIndex) (root : IndexRoot) (func : Bool) (now : ℤ) : FileIndex :=
  let entry := (w.cache root).getD newEntry
  if entry.files = none ∨ now - entry.builtAt > mooFileIndexMaxAge then
    w.startRefresh root entry func
  else w

/-- What `_moo_file_index_get` returns. -/
def cached (w : FileIndex) (root : IndexRoot) : Option ℕ := (w.cache root).bind (·.files)

/-- `_moo_file_index_forget` -/
def forget (w : FileIndex) (root : IndexRoot) : FileIndex :=
  { w.setEntry root none with
    freed := w.freed ++ (w.cached root).toList
    log := w.log ++ [.forgot root] }

/-- `refresh_done`, up to the loop. -/
def refreshDone (w : FileIndex) (files : ℕ) (root : IndexRoot) (now : ℤ) : FileIndex :=
  let landed : FileIndex :=
    { w with builds := w.builds.filter (·.1 ≠ files), log := w.log ++ [.landed files root] }
  match w.cache root with
  | none => { landed with freed := w.freed ++ [files] }
  | some entry =>
    { landed.setEntry root (some ⟨some files, now, false, none⟩) with
      freed := w.freed ++ entry.files.toList
      calling := entry.waiters.map (⟨root, files, ·⟩) }

/-- One round of the loop of `refresh_done`, or its end. -/
def callNext (w : FileIndex) : FileIndex :=
  match w.calling with
  | none => w
  | some ⟨_, _, []⟩ => { w with calling := none }
  | some ⟨root, files, call :: rest⟩ =>
    { w with calling := some ⟨root, files, rest⟩, log := w.log ++ [.called call files] }

end FileIndex

/-- What happens to the cache. -/
inductive IndexEvent
  | get (root : IndexRoot) (func : Bool) (now : ℤ)
  | forget (root : IndexRoot)
  | land (files : ℕ) (now : ℤ)
  | callNext

namespace FileIndex

/-- What happens. A list lands in the main loop, and not while callbacks are called; they may ask
and forget. -/
def step (w : FileIndex) : IndexEvent → FileIndex
  | .get root func now => w.get root func now
  | .forget root => w.forget root
  | .land files now =>
    match w.calling, w.builds.find? (·.1 = files) with
    | none, some (files, root) => w.refreshDone files root now
    | _, _ => w
  | .callNext => w.callNext

/-- An entry is not forgotten while callbacks wait for its list or are called with it, and its root is
not asked for again until the build that runs for it has landed. -/
def Allowed (w : FileIndex) : IndexEvent → Prop
  | .get root _ _ => w.cache root = none → ∀ b ∈ w.builds, b.2 ≠ root
  | .forget root =>
    (∀ entry, w.cache root = some entry → entry.waiters = none) ∧
      ∀ calling, w.calling = some calling → calling.root ≠ root
  | _ => True

/-! ## What holds in every state -/

open Log

variable {w : FileIndex} {root : IndexRoot} {entry : CacheEntry} {files call : ℕ} {now : ℤ}

/-- The numbers of the callbacks that have been called. -/
def calledCalls (log : List IndexNote) : List ℕ :=
  log.filterMap fun
    | .called call _ => some call
    | _ => none

/-- The callback has been asked for, and has not been called. -/
def Pending (w : FileIndex) (call : ℕ) (root : IndexRoot) : Prop :=
  (∃ c, w.calling = some c ∧ call ∈ c.waiters) ∨
    ∃ entry ws, w.cache root = some entry ∧ entry.waiters = some ws ∧ call ∈ ws

/-- A callback may be called with a list: the list has landed after the callback was asked for, and
the root was not forgotten after the build had started. -/
def CallRight (log : List IndexNote) : IndexNote → Prop
  | .called call files => ∃ root, After (.asked call root) (.landed files root) log ∧
      Since (.started files root) (.forgot root) log
  | _ => True

/-- What holds of the builds, the lists and the callbacks, also inside `_moo_file_index_get`. -/
structure Core (w : FileIndex) : Prop where
  builds_files : (w.builds.map (·.1)).Nodup
  builds_roots : (w.builds.map (·.2)).Nodup
  refreshing : ∀ root entry, w.cache root = some entry →
    (entry.refreshing = true ↔ ∃ b ∈ w.builds, b.2 = root)
  builds_lt : ∀ b ∈ w.builds, b.1 < w.nextFiles ∧ b.1 ∉ w.freed ∧ ∀ root, w.cached root ≠ some b.1
  freed_lt : ∀ files ∈ w.freed, files < w.nextFiles
  cached_lt : ∀ root files, w.cached root = some files → files < w.nextFiles ∧ files ∉ w.freed
  cached_inj : ∀ root root' files, w.cached root = some files → w.cached root' = some files →
    root = root'
  started : ∀ b ∈ w.builds, (w.cache b.2).isSome → Since (.started b.1 b.2) (.forgot b.2) w.log
  calling : ∀ c, w.calling = some c → w.cached c.root = some c.files ∧
    Since (.started c.files c.root) (.forgot c.root) w.log ∧ c.waiters.Nodup ∧
      ∀ call ∈ c.waiters, After (.asked call c.root) (.landed c.files c.root) w.log ∧
        call ∉ calledCalls w.log
  waiters : ∀ root entry ws, w.cache root = some entry → entry.waiters = some ws → ws.Nodup ∧
    ∀ call ∈ ws, .asked call root ∈ w.log ∧ call ∉ calledCalls w.log ∧
      ∀ c, w.calling = some c → call ∉ c.waiters
  asked_lt : ∀ call root, .asked call root ∈ w.log → call < w.nextCall
  asked_inj : ∀ call root root', .asked call root ∈ w.log → .asked call root' ∈ w.log → root = root'
  asked : ∀ call root, .asked call root ∈ w.log → call ∈ calledCalls w.log ∨ w.Pending call root
  called_lt : ∀ call ∈ calledCalls w.log, call < w.nextCall
  called_once : (calledCalls w.log).Nodup
  calls_right : Whenever CallRight w.log

/-- Callbacks wait for a build that runs. -/
structure Inv (w : FileIndex) : Prop extends Core w where
  waiting : ∀ root entry, w.cache root = some entry → entry.waiters ≠ none → entry.refreshing = true

@[simp] theorem calledCalls_append (log more : List IndexNote) :
    calledCalls (log ++ more) = calledCalls log ++ calledCalls more := List.filterMap_append

@[simp] theorem calledCalls_asked : calledCalls [.asked call root] = [] := rfl

@[simp] theorem calledCalls_started : calledCalls [.started files root] = [] := rfl

@[simp] theorem calledCalls_landed : calledCalls [.landed files root] = [] := rfl

@[simp] theorem calledCalls_forgot : calledCalls [.forgot root] = [] := rfl

@[simp] theorem calledCalls_called : calledCalls [.called call files] = [call] := rfl

theorem Inv.init : init.Inv := by
  refine ⟨⟨?_, ?_, ?_, ?_, ?_, ?_, ?_, ?_, ?_, ?_, ?_, ?_, ?_, ?_, ?_, Whenever.nil⟩, ?_⟩ <;>
    simp [FileIndex.init, cached, calledCalls]

/-- The entry that `_moo_file_index_get` makes. -/
theorem Core.insert (h : w.Core) (hroot : w.cache root = none) (hidle : ∀ b ∈ w.builds, b.2 ≠ root) :
    (w.setEntry root (some newEntry)).Core := by
  obtain ⟨h1, h2, h3, h4, h5, h6, h7, h8, h9, h10, h11, h12, h13, h14, h15, h16⟩ := h
  have hcached : ∀ r, (w.setEntry root (some newEntry)).cached r = w.cached r := fun r => by
    simp only [cached, setEntry, Function.update_apply]
    split
    · next heq => simp [heq, hroot, newEntry]
    · rfl
  constructor
  · exact h1
  · exact h2
  · intro r e
    simp only [setEntry, Function.update_apply]
    grind [newEntry]
  · simp only [hcached]
    exact h4
  · exact h5
  · simp only [hcached]
    exact h6
  · simp only [hcached]
    exact h7
  · intro b hb
    have hne := hidle b hb
    simpa only [setEntry, Function.update_apply, hne, if_false] using h8 b hb
  · simp only [hcached]
    exact h9
  · intro r e ws
    simp only [setEntry, Function.update_apply]
    grind [newEntry]
  · exact h11
  · exact h12
  · intro call r hasked
    refine (h13 call r hasked).imp_right (Or.imp_right ?_)
    rintro ⟨e, ws, he, hws, hcall⟩
    refine ⟨e, ws, ?_, hws, hcall⟩
    simp only [setEntry, Function.update_apply]
    grind
  · exact h14
  · exact h15
  · exact h16

/-- One more callback waits. -/
theorem Core.addWaiter (h : w.Core) (hentry : w.cache root = some entry) :
    (w.addWaiter root entry).Core := by
  obtain ⟨h1, h2, h3, h4, h5, h6, h7, h8, h9, h10, h11, h12, h13, h14, h15, h16⟩ := h
  have hcached : ∀ r, (w.addWaiter root entry).cached r = w.cached r := fun r => by
    simp only [cached, FileIndex.addWaiter, setEntry, Function.update_apply]
    split
    · next heq => simp [heq, hentry]
    · rfl
  have hnew : ∀ r, IndexNote.asked w.nextCall r ∉ w.log := fun r hin =>
    absurd (h11 _ r hin) (lt_irrefl _)
  have hcalling : ∀ c, w.calling = some c → w.nextCall ∉ c.waiters := fun c hc hin => by
    obtain ⟨-, -, -, hafter⟩ := h9 c hc
    obtain ⟨pre, mid, hlog, -⟩ := (hafter _ hin).1
    exact hnew c.root (by simp [hlog])
  constructor
  · exact h1
  · exact h2
  · intro r e
    simp only [FileIndex.addWaiter, setEntry, Function.update_apply]
    grind
  · simp only [hcached]
    exact h4
  · exact h5
  · simp only [hcached]
    exact h6
  · simp only [hcached]
    exact h7
  · intro b hb hsome
    refine (h8 b hb ?_).append (by simp)
    simp only [FileIndex.addWaiter, setEntry, Function.update_apply] at hsome
    grind
  · simp only [hcached]
    intro c hc
    obtain ⟨hfiles, hsince, hnodup, hafter⟩ := h9 c hc
    refine ⟨hfiles, hsince.append (by simp), hnodup, fun call hcall => ?_⟩
    obtain ⟨hland, hnot⟩ := hafter call hcall
    exact ⟨hland.append _, by simpa [FileIndex.addWaiter] using hnot⟩
  · intro r e ws
    simp only [FileIndex.addWaiter, setEntry, Function.update_apply]
    split
    · next heq =>
      subst heq
      intro he hws
      have hold : (entry.waiters.getD []).Nodup ∧ ∀ call ∈ entry.waiters.getD [],
          IndexNote.asked call r ∈ w.log ∧ call ∉ calledCalls w.log ∧
            ∀ c, w.calling = some c → call ∉ c.waiters := by
        cases hw : entry.waiters with
        | none => simp
        | some ws => exact h10 r entry ws hentry hw
      obtain rfl := Option.some.inj he
      obtain rfl := Option.some.inj hws
      have hlast : w.nextCall ∉ entry.waiters.getD [] := fun hin =>
        hnew r (hold.2 _ hin).1
      refine ⟨List.nodup_append.2 ⟨hold.1, List.nodup_singleton _, by grind⟩, fun call hcall => ?_⟩
      rcases List.mem_append.1 hcall with hcall | hcall
      · obtain ⟨hin, hnot, hapart⟩ := hold.2 call hcall
        exact ⟨List.mem_append_left _ hin, by simpa using hnot, hapart⟩
      · obtain rfl := List.mem_singleton.1 hcall
        refine ⟨by simp, fun hin => ?_, hcalling⟩
        exact absurd (h14 _ (by simpa using hin)) (lt_irrefl _)
    · intro he hws
      obtain ⟨hnodup, hall⟩ := h10 r e ws he hws
      refine ⟨hnodup, fun call hcall => ?_⟩
      obtain ⟨hin, hnot, hapart⟩ := hall call hcall
      exact ⟨List.mem_append_left _ hin, by simpa using hnot, hapart⟩
  · intro call r hin
    simp only [FileIndex.addWaiter] at hin ⊢
    grind
  · intro call r r' hin hin'
    simp only [FileIndex.addWaiter] at hin hin'
    grind
  · intro call r hin
    have hkept : ∀ e ws, w.cache r = some e → e.waiters = some ws → call ∈ ws →
        (w.addWaiter root entry).Pending call r := fun e ws he hws hcall => by
      refine .inr ?_
      simp only [FileIndex.addWaiter, setEntry, Function.update_apply]
      grind
    rcases List.mem_append.1 hin with hin | hin
    · rcases h13 call r hin with hcalled | ⟨c, hc, hcall⟩ | ⟨e, ws, he, hws, hcall⟩
      · exact .inl (by simpa [FileIndex.addWaiter] using hcalled)
      · exact .inr (.inl ⟨c, hc, hcall⟩)
      · exact .inr (hkept e ws he hws hcall)
    · obtain ⟨rfl, rfl⟩ : call = w.nextCall ∧ r = root := by simpa using hin
      exact .inr (.inr ⟨_, _, Function.update_self _ _ _, rfl, by simp⟩)
  · intro call hin
    have hlt := h14 call (by simpa [FileIndex.addWaiter] using hin)
    exact Nat.lt_succ_of_lt hlt
  · simpa [FileIndex.addWaiter] using h15
  · exact h16.snoc trivial

/-- A build is started, or one runs already. -/
theorem Core.startBuild (h : w.Core) : (w.startBuild root).Core := by
  unfold FileIndex.startBuild
  split
  · exact h
  next entry hentry =>
  by_cases hrefreshing : entry.refreshing = true
  · simpa only [hrefreshing, if_true] using h
  simp only [if_neg hrefreshing]
  obtain ⟨h1, h2, h3, h4, h5, h6, h7, h8, h9, h10, h11, h12, h13, h14, h15, h16⟩ := h
  have hidle : ∀ b ∈ w.builds, b.2 ≠ root := fun b hb heq =>
    hrefreshing ((h3 root entry hentry).2 ⟨b, hb, heq⟩)
  have hcached : ∀ r, (w.setEntry root (some { entry with refreshing := true })).cached r =
      w.cached r := fun r => by
    simp only [cached, setEntry, Function.update_apply]
    split
    · next heq => simp [heq, hentry]
    · rfl
  have hlt : ∀ b ∈ w.builds, b.1 ≠ w.nextFiles := fun b hb => (h4 b hb).1.ne
  constructor
  · simpa [List.nodup_append, h1] using hlt
  · simpa [List.nodup_append, h2] using fun a b hb => hidle (b, a) hb
  · intro r e
    simp only [setEntry, Function.update_apply]
    split
    · next heq =>
      subst heq
      intro he
      obtain rfl := Option.some.inj he
      simp
    · next hne =>
      intro he
      simpa [h3 r e he] using fun heq : root = r => absurd heq.symm hne
  · intro b hb
    rcases List.mem_append.1 hb with hb | hb
    · obtain ⟨hb, hfreed, hall⟩ := h4 b hb
      exact ⟨Nat.lt_succ_of_lt hb, hfreed, fun r hr =>
        hall r ((hcached r).symm.trans hr)⟩
    · obtain rfl := List.mem_singleton.1 hb
      refine ⟨Nat.lt_succ_self _, fun hin => absurd (h5 _ hin) (lt_irrefl _), fun r hr => ?_⟩
      exact absurd (h6 r _ ((hcached r).symm.trans hr)).1 (lt_irrefl _)
  · exact fun files hin => Nat.lt_succ_of_lt (h5 files hin)
  · intro r files hr
    obtain ⟨hlt, hfreed⟩ := h6 r files ((hcached r).symm.trans hr)
    exact ⟨Nat.lt_succ_of_lt hlt, hfreed⟩
  · intro r r' files hr hr'
    exact h7 r r' files ((hcached r).symm.trans hr) ((hcached r').symm.trans hr')
  · intro b hb hsome
    rcases List.mem_append.1 hb with hb | hb
    · refine (h8 b hb ?_).append (by simp)
      simpa only [setEntry, Function.update_apply, hidle b hb, if_false] using hsome
    · obtain rfl := List.mem_singleton.1 hb
      exact Since.snoc
  · intro c hc
    obtain ⟨hfiles, hsince, hnodup, hafter⟩ := h9 c hc
    refine ⟨(hcached c.root).trans hfiles, hsince.append (by simp), hnodup, fun call hcall => ?_⟩
    obtain ⟨hland, hnot⟩ := hafter call hcall
    exact ⟨hland.append _, by simpa using hnot⟩
  · intro r e ws he hws
    obtain ⟨e', he', hws'⟩ : ∃ e', w.cache r = some e' ∧ e'.waiters = some ws := by
      simp only [setEntry, Function.update_apply] at he
      grind
    obtain ⟨hnodup, hall⟩ := h10 r e' ws he' hws'
    refine ⟨hnodup, fun call hcall => ?_⟩
    obtain ⟨hin, hnot, hapart⟩ := hall call hcall
    exact ⟨List.mem_append_left _ hin, by simpa using hnot, hapart⟩
  · intro call r hin
    exact h11 call r (by simpa using hin)
  · intro call r r' hin hin'
    exact h12 call r r' (by simpa using hin) (by simpa using hin')
  · intro call r hin
    refine (h13 call r (by simpa using hin)).imp (by simp) (Or.imp_right ?_)
    rintro ⟨e, ws, he, hws, hcall⟩
    simp only [setEntry, Function.update_apply]
    grind
  · intro call hin
    exact h14 call (by simpa using hin)
  · simpa using h15
  · exact h16.snoc trivial

/-- `start_refresh` leaves the entry refreshing. -/
theorem refreshing_startBuild (h : w.cache root = some entry) (r : IndexRoot) :
    (w.startBuild root).cache r =
      if r = root then some { entry with refreshing := true } else w.cache r := by
  unfold FileIndex.startBuild
  simp only [h]
  by_cases hrefreshing : entry.refreshing = true
  · obtain ⟨files, builtAt, refreshing, waiters⟩ := entry
    obtain rfl : refreshing = true := hrefreshing
    simp only [if_true]
    split
    · next heq => rw [heq, h]
    · rfl
  · simp only [if_neg hrefreshing, setEntry, Function.update_apply]

theorem Inv.get (h : w.Inv) {func : Bool} (he : w.Allowed (.get root func now)) :
    (w.step (.get root func now)).Inv := by
  simp only [step, FileIndex.get]
  split
  swap
  · exact h
  set entry := (w.cache root).getD newEntry with hentry
  have hcore : (w.setEntry root (some entry)).Core := by
    cases hcache : w.cache root with
    | none => simpa [hentry, hcache] using h.toCore.insert hcache (he hcache)
    | some e =>
      have he : some entry = w.cache root := by simp [hentry, hcache]
      rw [setEntry, he, Function.update_eq_self]
      exact h.toCore
  have hself : (w.setEntry root (some entry)).cache root = some entry := Function.update_self _ _ _
  have hmid : (if func then w.addWaiter root entry else w.setEntry root (some entry)).Core ∧
      ∃ e, ∀ r, (if func then w.addWaiter root entry else w.setEntry root (some entry)).cache r =
        if r = root then some e else w.cache r := by
    cases func with
    | false =>
      refine ⟨hcore, entry, fun r => ?_⟩
      simp [setEntry, Function.update_apply]
    | true =>
      have hadd : w.addWaiter root entry = (w.setEntry root (some entry)).addWaiter root entry := by
        simp [FileIndex.addWaiter, setEntry]
      refine ⟨hadd ▸ hcore.addWaiter hself, { entry with
        waiters := some (entry.waiters.getD [] ++ [w.nextCall]) }, fun r => ?_⟩
      simp only [if_true, FileIndex.addWaiter, setEntry, Function.update_apply]
  obtain ⟨hmid, e, hcache⟩ := hmid
  refine ⟨hmid.startBuild, fun r e' he' hwaiters => ?_⟩
  have hr := refreshing_startBuild ((hcache root).trans (if_pos rfl)) r
  rw [startRefresh, hr, hcache] at he'
  split at he'
  · exact Option.some.inj he' ▸ rfl
  · exact h.waiting r e' he' hwaiters

theorem Inv.forget (h : w.Inv) (he : w.Allowed (.forget root)) : (w.step (.forget root)).Inv := by
  obtain ⟨hwait, hcall⟩ := he
  obtain ⟨⟨h1, h2, h3, h4, h5, h6, h7, h8, h9, h10, h11, h12, h13, h14, h15, h16⟩, h17⟩ := h
  have hcached : ∀ r, (w.setEntry root none).cached r = if r = root then none else w.cached r :=
    fun r => by
      simp only [cached, setEntry, Function.update_apply]
      split <;> rfl
  have hcache : ∀ r e, (w.setEntry root none).cache r = some e → r ≠ root ∧ w.cache r = some e :=
    fun r e he => by
      simp only [setEntry, Function.update_apply] at he
      grind
  have hold : ∀ r files, (w.setEntry root none).cached r = some files →
      r ≠ root ∧ w.cached r = some files := fun r files hr => by
    rw [hcached] at hr
    grind
  simp only [step, FileIndex.forget]
  refine ⟨⟨h1, h2, ?_, ?_, ?_, ?_, ?_, ?_, ?_, ?_, ?_, ?_, ?_, ?_, ?_, ?_⟩, ?_⟩
  · exact fun r e he => h3 r e (hcache r e he).2
  · intro b hb
    obtain ⟨hlt, hfreed, hall⟩ := h4 b hb
    refine ⟨hlt, ?_, fun r hr => hall r (hold r _ hr).2⟩
    simpa [hfreed] using hall root
  · intro files hin
    rcases List.mem_append.1 hin with hin | hin
    · exact h5 files hin
    · exact (h6 root files (by simpa using hin)).1
  · intro r files hr
    obtain ⟨hne, hr⟩ := hold r files hr
    obtain ⟨hlt, hfreed⟩ := h6 r files hr
    refine ⟨hlt, fun hin => ?_⟩
    rcases List.mem_append.1 hin with hin | hin
    · exact hfreed hin
    · exact hne (h7 r root files hr (by simpa using hin))
  · exact fun r r' files hr hr' => h7 r r' files (hold r _ hr).2 (hold r' _ hr').2
  · intro b hb hsome
    obtain ⟨e, he⟩ := Option.isSome_iff_exists.1 hsome
    obtain ⟨hne, he⟩ := hcache b.2 e he
    exact (h8 b hb (by simp [he])).append (by simpa using hne)
  · intro c hc
    have hne := hcall c hc
    obtain ⟨hfiles, hsince, hnodup, hafter⟩ := h9 c hc
    refine ⟨(hcached c.root).trans (by simpa [hne] using hfiles), hsince.append (by simpa using hne),
      hnodup, fun call hcall => ?_⟩
    obtain ⟨hland, hnot⟩ := hafter call hcall
    exact ⟨hland.append _, by simpa using hnot⟩
  · intro r e ws he hws
    obtain ⟨hnodup, hall⟩ := h10 r e ws (hcache r e he).2 hws
    refine ⟨hnodup, fun call hcall => ?_⟩
    obtain ⟨hin, hnot, hapart⟩ := hall call hcall
    exact ⟨List.mem_append_left _ hin, by simpa using hnot, hapart⟩
  · intro call r hin
    exact h11 call r (by simpa using hin)
  · intro call r r' hin hin'
    exact h12 call r r' (by simpa using hin) (by simpa using hin')
  · -- nobody waited for the entry that is gone
    intro call r hin
    refine (h13 call r (by simpa using hin)).imp (by simp) (Or.imp_right ?_)
    rintro ⟨e, ws, he, hws, hcall⟩
    have hne : r ≠ root := by
      rintro rfl
      simp [hwait e he] at hws
    refine ⟨e, ws, ?_, hws, hcall⟩
    simpa only [setEntry, Function.update_apply, hne, if_false] using he
  · intro call hin
    exact h14 call (by simpa using hin)
  · simpa using h15
  · exact h16.snoc trivial
  · exact fun r e he => h17 r e (hcache r e he).2

theorem Inv.refreshDone (h : w.Inv) (hidle : w.calling = none) (hb : (files, root) ∈ w.builds) :
    (w.refreshDone files root now).Inv := by
  obtain ⟨⟨h1, h2, h3, h4, h5, h6, h7, h8, h9, h10, h11, h12, h13, h14, h15, h16⟩, h17⟩ := h
  obtain ⟨hlt, hfreed, hfresh⟩ := h4 _ hb
  -- the other builds are of other roots
  have hother : ∀ b ∈ w.builds.filter (·.1 ≠ files), b ∈ w.builds ∧ b.1 ≠ files ∧ b.2 ≠ root := by
    intro b hin
    obtain ⟨hin, hne⟩ : b ∈ w.builds ∧ b.1 ≠ files := by simpa using hin
    refine ⟨hin, hne, fun heq => hne ?_⟩
    exact congrArg Prod.fst (List.inj_on_of_nodup_map h2 hin hb heq)
  have hkeep : ∀ b ∈ w.builds, b.2 ≠ root → b ∈ w.builds.filter (·.1 ≠ files) := by
    intro b hin hne
    have hfiles : b.1 ≠ files := fun heq =>
      hne (congrArg Prod.snd (List.inj_on_of_nodup_map h1 hin hb heq))
    simpa using ⟨hin, hfiles⟩
  have hmap : ∀ {β : Type} (f : ℕ × IndexRoot → β), (w.builds.map f).Nodup →
      ((w.builds.filter (·.1 ≠ files)).map f).Nodup := fun f hf =>
    hf.sublist (List.filter_sublist.map f)
  unfold FileIndex.refreshDone
  cases hcache : w.cache root with
  | none =>
    have hroot : ∀ r e, w.cache r = some e → r ≠ root := fun r e he heq => by
      simp [heq, hcache] at he
    refine ⟨⟨hmap _ h1, hmap _ h2, ?_, ?_, ?_, ?_, h7, ?_, ?_, ?_, ?_, ?_, ?_, ?_, ?_, ?_⟩, h17⟩
    · intro r e he
      have hne := hroot r e he
      refine (h3 r e he).trans ⟨fun ⟨b, hin, hr⟩ => ⟨b, hkeep b hin (hr ▸ hne), hr⟩,
        fun ⟨b, hin, hr⟩ => ⟨b, (hother b hin).1, hr⟩⟩
    · intro b hin
      obtain ⟨hin, hne, -⟩ := hother b hin
      obtain ⟨hlt, hfreed, hall⟩ := h4 b hin
      exact ⟨hlt, by simpa [hfreed] using hne, hall⟩
    · intro f hin
      rcases List.mem_append.1 hin with hin | hin
      · exact h5 f hin
      · exact List.mem_singleton.1 hin ▸ hlt
    · intro r f hr
      obtain ⟨hlt, hnot⟩ := h6 r f hr
      have hne : f ≠ files := fun heq => hfresh r (heq ▸ hr)
      exact ⟨hlt, by simpa [hnot] using hne⟩
    · exact fun b hin hsome => (h8 b (hother b hin).1 hsome).append (by simp)
    · exact fun c hc => absurd (hidle.symm.trans hc) (by simp)
    · intro r e ws he hws
      obtain ⟨hnodup, hall⟩ := h10 r e ws he hws
      refine ⟨hnodup, fun call hcall => ?_⟩
      obtain ⟨hin, hnot, hapart⟩ := hall call hcall
      exact ⟨List.mem_append_left _ hin, by simpa using hnot, hapart⟩
    · exact fun call r hin => h11 call r (by simpa using hin)
    · exact fun call r r' hin hin' => h12 call r r' (by simpa using hin) (by simpa using hin')
    · exact fun call r hin => (h13 call r (by simpa using hin)).imp_left (by simp)
    · exact fun call hin => h14 call (by simpa using hin)
    · simpa using h15
    · exact h16.snoc trivial
  | some entry =>
    have hget : ∀ r, Function.update w.cache root (some ⟨some files, now, false, none⟩) r =
        if r = root then some ⟨some files, now, false, none⟩ else w.cache r := fun r =>
      Function.update_apply _ _ _ _
    set w' : FileIndex := { ({ w with
        builds := w.builds.filter (·.1 ≠ files)
        log := w.log ++ [.landed files root] } : FileIndex).setEntry root
          (some ⟨some files, now, false, none⟩) with
      freed := w.freed ++ entry.files.toList
      calling := entry.waiters.map (⟨root, files, ·⟩) } with hw'
    have hcache' : ∀ r, w'.cache r =
        if r = root then some ⟨some files, now, false, none⟩ else w.cache r := hget
    have hcached : ∀ r, w'.cached r = if r = root then some files else w.cached r := fun r => by
      simp only [cached, hcache']
      split <;> rfl
    have hgone : w.cached root = entry.files := by simp [cached, hcache]
    refine ⟨⟨hmap _ h1, hmap _ h2, ?_, ?_, ?_, ?_, ?_, ?_, ?_, ?_, ?_, ?_, ?_, ?_, ?_, ?_⟩, ?_⟩
    · intro r e he
      rw [hcache'] at he
      split at he
      · next heq =>
        obtain rfl := Option.some.inj he
        have hnone : ∀ b ∈ w'.builds, b.2 ≠ r := fun b hin => heq.symm ▸ (hother b hin).2.2
        exact ⟨fun ht => by simp at ht, fun ⟨b, hin, hr⟩ => absurd hr (hnone b hin)⟩
      · next hne =>
        exact (h3 r e he).trans ⟨fun ⟨b, hin, hr⟩ => ⟨b, hkeep b hin (hr ▸ hne), hr⟩,
          fun ⟨b, hin, hr⟩ => ⟨b, (hother b hin).1, hr⟩⟩
    · intro b hin
      obtain ⟨hin, hne, -⟩ := hother b hin
      obtain ⟨hlt, hfreed, hall⟩ := h4 b hin
      refine ⟨hlt, ?_, fun r => ?_⟩
      · simpa [hw', hfreed, ← hgone] using hall root
      · rw [hcached]
        split
        · simpa using hne.symm
        · exact hall r
    · intro f hin
      rcases List.mem_append.1 hin with hin | hin
      · exact h5 f hin
      · exact (h6 root f (by simpa [hgone] using hin)).1
    · intro r f hr
      rw [hcached] at hr
      split at hr
      · obtain rfl := Option.some.inj hr
        refine ⟨hlt, ?_⟩
        simpa [hw', hfreed, ← hgone] using hfresh root
      · next hne =>
        obtain ⟨hlt, hnot⟩ := h6 r f hr
        refine ⟨hlt, ?_⟩
        simpa [hw', hnot, ← hgone] using fun heq => hne (h7 r root f hr heq)
    · intro r r' f hr hr'
      rw [hcached] at hr hr'
      grind
    · intro b hin hsome
      obtain ⟨hin, -, hne⟩ := hother b hin
      rw [hcache', if_neg hne] at hsome
      exact (h8 b hin hsome).append (by simp)
    · intro c hc
      obtain ⟨ws, hws, rfl⟩ := Option.map_eq_some_iff.1 hc
      obtain ⟨hnodup, hall⟩ := h10 root entry ws hcache hws
      refine ⟨(hcached root).trans (if_pos rfl), (h8 _ hb (by simp [hcache])).append (by simp), hnodup,
        fun call hcall => ?_⟩
      obtain ⟨hin, hnot, -⟩ := hall call hcall
      exact ⟨After.snoc hin, by simpa [hw', setEntry] using hnot⟩
    · intro r e ws he hws
      rw [hcache'] at he
      split at he
      · obtain rfl := Option.some.inj he
        simp at hws
      · next hne =>
        obtain ⟨hnodup, hall⟩ := h10 r e ws he hws
        refine ⟨hnodup, fun call hcall => ?_⟩
        obtain ⟨hin, hnot, -⟩ := hall call hcall
        refine ⟨List.mem_append_left _ hin, by simpa [hw', setEntry] using hnot, fun c hc hin' => ?_⟩
        obtain ⟨ws', hws', rfl⟩ := Option.map_eq_some_iff.1 hc
        exact hne (h12 call r root hin ((h10 root entry ws' hcache hws').2 call hin').1)
    · exact fun call r hin => h11 call r (by simpa [hw', setEntry] using hin)
    · exact fun call r r' hin hin' => h12 call r r' (by simpa [hw', setEntry] using hin)
        (by simpa [hw', setEntry] using hin')
    · -- whoever waited for the list is called now
      intro call r hin
      rcases h13 call r (by simpa [hw', setEntry] using hin) with
        hcalled | ⟨c, hc, -⟩ | ⟨e, ws, he, hws, hcall⟩
      · exact .inl (by simpa [hw', setEntry] using hcalled)
      · simp [hidle] at hc
      · by_cases hr : r = root
        · obtain rfl : e = entry := by simpa [hr, hcache, eq_comm] using he
          exact .inr (.inl ⟨⟨root, files, ws⟩, by simp [hws], hcall⟩)
        · exact .inr (.inr ⟨e, ws, by rw [hcache', if_neg hr, he], hws, hcall⟩)
    · exact fun call hin => h14 call (by simpa [hw', setEntry] using hin)
    · simpa [hw', setEntry] using h15
    · exact h16.snoc trivial
    · intro r e he hws
      rw [hcache'] at he
      split at he
      · obtain rfl := Option.some.inj he
        exact absurd rfl hws
      · exact h17 r e he hws

theorem Inv.callNext (h : w.Inv) : w.callNext.Inv := by
  unfold FileIndex.callNext
  split
  · exact h
  · next root files hc =>
    obtain ⟨⟨h1, h2, h3, h4, h5, h6, h7, h8, h9, h10, h11, h12, h13, h14, h15, h16⟩, h17⟩ := h
    refine ⟨⟨h1, h2, h3, h4, h5, h6, h7, h8, by simp, ?_, h11, h12, ?_, h14, h15, h16⟩, h17⟩
    · intro r e ws he hws
      obtain ⟨hnodup, hall⟩ := h10 r e ws he hws
      exact ⟨hnodup, fun call hcall => ⟨(hall call hcall).1, (hall call hcall).2.1, by simp⟩⟩
    · intro call r hin
      rcases h13 call r hin with hcalled | ⟨c, hc', hcall⟩ | hwaits
      · exact .inl hcalled
      · obtain rfl := Option.some.inj (hc.symm.trans hc')
        simp at hcall
      · exact .inr (.inr hwaits)
  · next root files call rest hc =>
    obtain ⟨⟨h1, h2, h3, h4, h5, h6, h7, h8, h9, h10, h11, h12, h13, h14, h15, h16⟩, h17⟩ := h
    obtain ⟨hfiles, hsince, hnodup, hafter⟩ := h9 _ hc
    obtain ⟨hnot, hnodup⟩ := List.nodup_cons.1 hnodup
    obtain ⟨hland, hfirst⟩ := hafter call (by simp)
    refine ⟨⟨h1, h2, h3, h4, h5, h6, h7, fun b hin hsome => (h8 b hin hsome).append (by simp), ?_, ?_,
      fun call r hin => h11 call r (by simpa using hin),
      fun call r r' hin hin' => h12 call r r' (by simpa using hin) (by simpa using hin'), ?_, ?_, ?_,
      h16.snoc ⟨root, hland, hsince⟩⟩, h17⟩
    · intro c hc'
      obtain rfl := Option.some.inj hc'
      refine ⟨hfiles, hsince.append (by simp), hnodup, fun other hother => ?_⟩
      obtain ⟨hland, hlast⟩ := hafter other (List.mem_cons_of_mem _ hother)
      have hne : other ≠ call := fun heq => hnot (heq ▸ hother)
      exact ⟨hland.append _, by simpa [hlast] using hne⟩
    · intro r e ws he hws
      obtain ⟨hnodup, hall⟩ := h10 r e ws he hws
      refine ⟨hnodup, fun other hother => ?_⟩
      obtain ⟨hin, hlast, hapart⟩ := hall other hother
      have hne : other ≠ call := fun heq => hapart _ hc (heq ▸ by simp)
      refine ⟨List.mem_append_left _ hin, by simpa [hlast] using hne, fun c hc' hin' => ?_⟩
      obtain rfl := Option.some.inj hc'
      exact hapart _ hc (List.mem_cons_of_mem _ hin')
    · intro other r hin
      rcases h13 other r (by simpa using hin) with hcalled | ⟨c, hc', hcall⟩ | hwaits
      · exact .inl (by simpa using .inl hcalled)
      · obtain rfl := Option.some.inj (hc.symm.trans hc')
        rcases List.mem_cons.1 hcall with rfl | hcall
        · exact .inl (by simp)
        · exact .inr (.inl ⟨_, rfl, hcall⟩)
      · exact .inr (.inr hwaits)
    · intro other hin
      have hin : other ∈ calledCalls w.log ∨ other = call := by simpa using hin
      rcases hin with hin | rfl
      · exact h14 other hin
      · obtain ⟨pre, mid, hlog, -⟩ := hland
        exact h11 other root (by simp [hlog])
    · simpa [List.nodup_append, h15] using fun a ha (heq : a = call) => hfirst (heq ▸ ha)

theorem Inv.step (h : w.Inv) {e : IndexEvent} (he : w.Allowed e) : (w.step e).Inv := by
  cases e with
  | get root func now => exact h.get he
  | forget root => exact h.forget he
  | land files now =>
    simp only [FileIndex.step]
    split
    · next files' root hidle hfind =>
      obtain rfl : files' = files := by simpa using List.find?_some hfind
      exact h.refreshDone hidle (List.mem_of_find?_eq_some hfind)
    · exact h
  | callNext => exact h.callNext

theorem inv_of_reachable (h : Machine.Reachable step Allowed init w) : w.Inv :=
  h.invariant .init fun _ _ he hinv => hinv.step he

/-! ## Main results -/

/-- When no entry is forgotten that is waited for, at most one build runs for each root; every callback
is called once, or it is not called yet and its list is being built or its turn comes; what it is
called with has landed after it was asked for, and was not built for an entry that is forgotten; and
the lists of the cache are alive, those that callbacks are called with among them. -/
theorem callbacks_right (h : Machine.Reachable step Allowed init w) :
    (∀ root, (w.builds.filter (·.2 = root)).length ≤ 1) ∧
    (∀ call root, .asked call root ∈ w.log →
      (calledCalls w.log).count call = 1 ∧ ¬ w.Pending call root ∨
        (calledCalls w.log).count call = 0 ∧
          ((∃ c, w.calling = some c ∧ call ∈ c.waiters) ∨ ∃ b ∈ w.builds, b.2 = root)) ∧
    (∀ pre call files post, w.log = pre ++ .called call files :: post → ∃ root,
      After (.asked call root) (.landed files root) pre ∧
        Since (.started files root) (.forgot root) pre) ∧
    (∀ root files, w.cached root = some files → files ∉ w.freed) ∧
    ∀ c, w.calling = some c → w.cached c.root = some c.files ∧ c.files ∉ w.freed := by
  have hinv := inv_of_reachable h
  refine ⟨fun root => ?_, fun call root hasked => ?_, fun pre call files post hlog =>
    hinv.calls_right pre _ post hlog, fun root files hf => (hinv.cached_lt root files hf).2,
    fun c hc => ?_⟩
  · have hroots : ((w.builds.filter (·.2 = root)).map (·.2)).Nodup :=
      hinv.builds_roots.sublist (List.filter_sublist.map _)
    have hall : ∀ r ∈ (w.builds.filter (·.2 = root)).map (·.2), r = root := by simp
    rw [← List.length_map (·.2)]
    exact (List.nodup_iff_count_le_one.1 hroots root).trans' (by
      rw [List.count_eq_length.2 fun r hr => (hall r hr).symm])
  · have hpending : w.Pending call root → call ∉ calledCalls w.log := by
      rintro (⟨c, hc, hcall⟩ | ⟨e, ws, he, hws, hcall⟩)
      · exact ((hinv.calling c hc).2.2.2 call hcall).2
      · exact ((hinv.waiters root e ws he hws).2 call hcall).2.1
    by_cases hp : w.Pending call root
    · refine .inr ⟨List.count_eq_zero.2 (hpending hp), hp.imp_right ?_⟩
      rintro ⟨e, ws, he, hws, -⟩
      exact (hinv.refreshing root e he).1 (hinv.waiting root e he (by simp [hws]))
    · refine .inl ⟨?_, hp⟩
      exact List.count_eq_one_of_mem hinv.called_once ((hinv.asked call root hasked).resolve_right hp)
  · have hfiles := (hinv.calling c hc).1
    exact ⟨hfiles, (hinv.cached_lt _ _ hfiles).2⟩

/-- Two callbacks that wait for one build. -/
theorem callbacks_right_two :
    let w := [.get [1] true 0, .get [1] true 1, .land 0 2, .callNext, .callNext].foldl step init
    calledCalls w.log = [0, 1] ∧ w.calling.map (·.files) = some 0 ∧ 0 ∉ w.freed := by
  intro w
  have hone : Machine.Reachable step Allowed init (init.step (.get [1] true 0)) :=
    .step .start fun _ b hb => by simp [init] at hb
  have htwo := hone.step (e := IndexEvent.get [1] true 1) fun hnone => by cases hnone
  have hland := htwo.step (e := IndexEvent.land 0 2) trivial
  have hcall := (hland.step (e := IndexEvent.callNext) trivial).step (e := IndexEvent.callNext) trivial
  obtain ⟨-, -, -, halive, -⟩ := callbacks_right hcall
  exact ⟨by decide, by decide, halive [1] 0 (by decide)⟩

/-- A callback that is never called, as its root is forgotten while its list is built; two builds for
a root that is asked for again, and a callback that is called with the list of the first one; and a
callback that forgets the root, whose list it is called with. -/
theorem callbacks_wrong :
    let w := [.get [1] true 0, .forget [1], .land 0 1].foldl step init
    let v := [.get [1] true 0, .forget [1], .get [1] true 0].foldl step init
    let u := [.land 0 1, .callNext].foldl step v
    let x := [.get [1] true 0, .land 0 1, .callNext, .forget [1]].foldl step init
    (.asked 0 [1] ∈ w.log ∧ calledCalls w.log = [] ∧ w.builds = [] ∧ w.calling.isNone) ∧
      (v.builds.filter (·.2 = [1])).length = 2 ∧
      u.log = [.asked 0 [1], .started 0 [1], .forgot [1], .asked 1 [1], .started 1 [1], .landed 0 [1],
        .called 1 0] ∧
      x.calling.map (·.files) = some 0 ∧ 0 ∈ x.freed := by
  decide

end FileIndex

end Medit
