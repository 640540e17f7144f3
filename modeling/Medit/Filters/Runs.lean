import Medit.Filters.Loading

/-!
# Runs of the filter manager

What the stores have in every state of a run, and when a save keeps it.

## Main definitions

* `Mgr.history` — the user filters a store has got in a run, newest first.
* `Mgr.Recorded` — what an operation does to a store is saved, and loaded as it was.

## Main results

* `run_saves` — the rows of every store in every run, and what is saved in runs of such operations.
-/

namespace Medit.Filters

open Function RecentItems

/-! ## Loading any file -/

/-- The glob of a user filter that is loaded. -/
def Element.userGlob : Element → Option Str
  | .filter content => content
  | .last content user _ => if user = some trueStr then content else none
  | .other _ => none

/-- The glob of a built-in filter that is loaded. -/
def Element.builtinGlob : Element → Option Str
  | .last content user description =>
    if user = some trueStr then none else description.bind fun _ => content
  | _ => none

/-- The elements of a set that is loaded. -/
def Node.elements : Node → List Element
  | .default elements => elements
  | .set userId elements => if userId.getD [] = [] then [] else elements
  | .other _ => []

def File.userGlobs (file : File) : List Str :=
  (file.flatMap Node.elements).filterMap Element.userGlob

def File.builtinGlobs (file : File) : List Str :=
  (file.flatMap Node.elements).filterMap Element.builtinGlob

/-- No filter is a user filter in one place of a file and a built-in filter in another. -/
def File.Apart (file : File) : Prop := ∀ glob ∈ file.builtinGlobs, glob ∉ file.userGlobs

instance (file : File) : Decidable file.Apart := inferInstanceAs (Decidable (∀ _ ∈ _, _))

namespace Mgr

variable {s s' : Mgr} {userId : Option Str} {f : Filter} {users builtins : List Str}

/-- What an element does when it is loaded, if anything. -/
inductive Loads (users builtins : List Str) (s s' : Mgr) : Prop
  | user (userId : Option Str) (f : Filter) (hid : userId ≠ some []) (hmem : f.glob ∈ users)
    (hgives : s.Gives f.glob f.glob true f)
    (hputs : s.Puts s' userId f ((s.contents userId).addUser f))
  | builtin (userId : Option Str) (f : Filter) (i : ℕ) (description : Str) (hid : userId ≠ some [])
    (hmem : f.glob ∈ builtins) (hgives : s.Gives description f.glob false f)
    (hputs : s.Puts s' userId f ((s.contents userId).addBuiltin f i))

theorem loadElement_cases (h : s.Good) (hid : userId ≠ some []) (elm : Element)
    (husers : ∀ glob ∈ elm.userGlob, glob ∈ users)
    (hbuiltins : ∀ glob ∈ elm.builtinGlob, glob ∈ builtins) :
    (s.loadElement userId elm).elim True fun s' =>
      s' = s ∨ s'.Good ∧ s.Loads users builtins s' := by
  have huser : ∀ glob ∈ users, s.newUserFilter glob userId = s ∨
      (s.newUserFilter glob userId).Good ∧
        s.Loads users builtins (s.newUserFilter glob userId) := by
    intro glob hmem
    rcases h.newUserFilter glob userId with ⟨-, -, hsame⟩ | ⟨f, rfl, hgives, hgood, hputs⟩
    · exact .inl hsame
    · exact .inr ⟨hgood, .user userId f hid hmem hgives hputs⟩
  cases elm with
  | other name => exact .inl rfl
  | filter content =>
    rcases content with - | (- | ⟨c, glob⟩)
    · exact .inl rfl
    · exact .inl rfl
    · exact huser _ (husers _ rfl)
  | last content user description =>
    rcases content with - | (- | ⟨c, glob⟩)
    · exact .inl rfl
    · exact .inl rfl
    · by_cases huser' : user = some trueStr
      · subst huser'
        exact huser _ (husers _ rfl)
      · cases description with
        | none =>
          simp only [loadElement, Option.getD_some, if_neg huser']
          exact .inl rfl
        | some description =>
          rcases loadElement_last_builtin h userId (List.cons_ne_nil c glob) huser'
            description with ⟨-, hnone⟩ | ⟨f, i, s', hload, hglob, hgives, hgood, hputs⟩
          · rw [hnone]
            trivial
          · rw [hload]
            refine .inr ⟨hgood, .builtin userId f i description hid ?_ (hglob ▸ hgives) hputs⟩
            exact hbuiltins _ (by simp [Element.builtinGlob, huser', hglob])

/-- What a manager that is new has, and every element that is loaded keeps. -/
theorem load_invariant (file : File) {P : Mgr → Prop} (hinit : P (init file))
    (hstep : ∀ s s', s.Good → P s → s.Loads file.userGlobs file.builtinGlobs s' → P s') :
    ∃ s, load file = { s with changed := false } ∧ s.Good ∧ P s := by
  have helements : ∀ userId ≠ some [], ∀ elms : List Element,
      (∀ elm ∈ elms, (∀ glob ∈ elm.userGlob, glob ∈ file.userGlobs) ∧
        ∀ glob ∈ elm.builtinGlob, glob ∈ file.builtinGlobs) →
      ∀ s : Mgr, s.Good → P s →
        (s.loadElements userId elms).Good ∧ P (s.loadElements userId elms) := by
    intro userId hid elms helms
    induction elms with
    | nil => exact fun s hgood h => ⟨hgood, h⟩
    | cons elm elms ih =>
      intro s hgood h
      obtain ⟨⟨husers, hbuiltins⟩, helms⟩ := List.forall_mem_cons.1 helms
      have hcases := loadElement_cases hgood hid elm husers hbuiltins
      rw [loadElements]
      cases hload : s.loadElement userId elm with
      | none => exact ⟨hgood, h⟩
      | some s' =>
        rw [hload] at hcases
        rcases hcases with rfl | ⟨hgood', hloads⟩
        · exact ih helms s' hgood h
        · exact ih helms s' hgood' (hstep s s' hgood h hloads)
  have hnodes : ∀ nodes : List Node, (∀ node ∈ nodes, node ∈ file) →
      ∀ s : Mgr, s.Good → P s → (nodes.foldl loadNode s).Good ∧ P (nodes.foldl loadNode s) := by
    intro nodes hnodes
    induction nodes with
    | nil => exact fun s hgood h => ⟨hgood, h⟩
    | cons node nodes ih =>
      intro s hgood h
      obtain ⟨hnode, hnodes⟩ := List.forall_mem_cons.1 hnodes
      have hset : ∀ userId ≠ some [], ∀ elms, node.elements = elms →
          (s.loadSet userId elms).Good ∧ P (s.loadSet userId elms) := by
        rintro userId hid elms rfl
        refine helements userId hid _ (fun elm helm => ?_) s hgood h
        have hmem : elm ∈ file.flatMap Node.elements :=
          List.mem_flatMap.2 ⟨node, hnode, List.mem_reverse.1 helm⟩
        exact ⟨fun glob hg => List.mem_filterMap.2 ⟨elm, hmem, hg⟩,
          fun glob hg => List.mem_filterMap.2 ⟨elm, hmem, hg⟩⟩
      have hnext : (s.loadNode node).Good ∧ P (s.loadNode node) := by
        cases node with
        | other name => exact ⟨hgood, h⟩
        | default elms => exact hset none (by simp) elms rfl
        | set userId elms =>
          rcases userId with - | (- | ⟨c, id⟩)
          · exact ⟨hgood, h⟩
          · exact ⟨hgood, h⟩
          · exact hset (some (c :: id)) (by simp) elms (by simp [Node.elements])
      exact ih hnodes _ hnext.1 hnext.2
  obtain ⟨hgood, h⟩ := hnodes file (fun _ => id) _ (.init file) hinit
  exact ⟨_, rfl, hgood, h⟩

theorem good_load (file : File) : (load file).Good := by
  obtain ⟨s, hload, hgood, -⟩ := load_invariant file (P := fun _ => True) trivial
    fun _ _ _ _ _ => trivial
  rw [hload]
  exact hgood.setChanged false

theorem file_load (file : File) : (load file).file = file := by
  obtain ⟨s, hload, -, hfile⟩ := load_invariant file (P := fun s => s.file = file) rfl
    fun s s' _ h hloads => by
      cases hloads with
      | user _ _ _ _ _ hputs => exact hputs.file.trans h
      | builtin _ _ _ _ _ _ _ hputs => exact hputs.file.trans h
  rw [hload]
  exact hfile

/-- A set without a user id is not loaded. -/
theorem contents_load_empty (file : File) : (load file).contents (some []) = .new := by
  obtain ⟨s, hload, -, hnew⟩ := load_invariant file (P := fun s => s.contents (some []) = .new) rfl
    fun s s' _ h hloads => by
      cases hloads with
      | user _ _ hid _ _ hputs => rw [hputs.contents, update_of_ne hid.symm, h]
      | builtin _ _ _ _ hid _ _ hputs => rw [hputs.contents, update_of_ne hid.symm, h]
  rw [hload]
  exact hnew

/-- A filter has the mark of the user if it is loaded as one. -/
structure LoadedSound (users builtins : List Str) (s : Mgr) : Prop where
  sound : ∀ id, (s.contents id).Sound
  marked : ∀ id, ∀ f ∈ (s.contents id).users, f.user
  users : ∀ glob f, s.filters glob = some f → f.user → glob ∈ users
  builtins : ∀ glob f, s.filters glob = some f → f.user = false →
    f = Filters.nullFilter ∨ glob ∈ builtins

theorem LoadedSound.loads (hgood : s.Good) (h : s.LoadedSound users builtins)
    (hapart : ∀ glob ∈ builtins, glob ∉ users) (hloads : s.Loads users builtins s') :
    s'.LoadedSound users builtins := by
  cases hloads with
  | user userId f hid hmem hgives hputs =>
    have hf : f ∈ (s.contents userId).builtins ∨ f.user ∧ f.description = f.glob := by
      rcases hgives with hknown | ⟨-, hnew⟩
      · cases huser : f.user with
        | true => exact .inr ⟨rfl, (hgood.glob _ _ hknown).2.2 huser⟩
        | false =>
          rcases h.builtins _ _ hknown huser with rfl | hb
          · exact .inl (hgood.contents userId).null
          · exact absurd hmem (hapart _ hb)
      · rw [hnew]
        exact .inr ⟨rfl, rfl⟩
    refine ⟨fun id => ?_, fun id => ?_, fun g f' hg huser => ?_, fun g f' hg huser => ?_⟩
    · rw [hputs.contents]
      rcases eq_or_ne id userId with rfl | hne
      · rw [update_self]
        exact (h.sound id).addUser (hf.imp_right And.right)
      · rw [update_of_ne hne]
        exact h.sound id
    · rw [hputs.contents]
      rcases eq_or_ne id userId with rfl | hne
      · rw [update_self, Contents.addUser]
        dsimp only
        split_ifs with hb
        · exact h.marked id
        · intro g hg
          rcases mem_touch hg with rfl | hg
          · exact (hf.resolve_left hb).1
          · exact h.marked id g hg
      · rw [update_of_ne hne]
        exact h.marked id
    · rw [hputs.filters] at hg
      rcases eq_or_ne g f.glob with rfl | hne
      · exact hmem
      · rw [update_of_ne hne] at hg
        exact h.users g f' hg huser
    · rw [hputs.filters] at hg
      rcases eq_or_ne g f.glob with rfl | hne
      · rw [update_self] at hg
        obtain rfl := Option.some.inj hg
        rcases hgives with hknown | ⟨-, hnew⟩
        · exact h.builtins _ _ hknown huser
        · rw [hnew] at huser
          simp at huser
      · rw [update_of_ne hne] at hg
        exact h.builtins g f' hg huser
  | builtin userId f i description hid hmem hgives hputs =>
    have hf : f.user = false := by
      rcases hgives with hknown | ⟨-, hnew⟩
      · rw [← Bool.not_eq_true]
        exact fun huser => hapart _ hmem (h.users _ _ hknown huser)
      · rw [hnew]
    have hu : f ∉ (s.contents userId).users := by
      intro hu
      have := h.marked userId f hu
      simp [hf] at this
    refine ⟨fun id => ?_, fun id => ?_, fun g f' hg huser => ?_, fun g f' hg huser => ?_⟩
    · rw [hputs.contents]
      rcases eq_or_ne id userId with rfl | hne
      · rw [update_self]
        exact (h.sound id).addBuiltin hf hu i
      · rw [update_of_ne hne]
        exact h.sound id
    · rw [hputs.contents]
      rcases eq_or_ne id userId with rfl | hne
      · rw [update_self]
        exact h.marked id
      · rw [update_of_ne hne]
        exact h.marked id
    · rw [hputs.filters] at hg
      rcases eq_or_ne g f.glob with rfl | hne
      · rw [update_self] at hg
        rw [← Option.some.inj hg, hf] at huser
        simp at huser
      · rw [update_of_ne hne] at hg
        exact h.users g f' hg huser
    · rw [hputs.filters] at hg
      rcases eq_or_ne g f.glob with rfl | hne
      · exact .inr hmem
      · rw [update_of_ne hne] at hg
        exact h.builtins g f' hg huser

theorem sound_load {file : File} (h : file.Apart) (id : Option Str) :
    ((load file).contents id).Sound := by
  have hinit : (init file).LoadedSound file.userGlobs file.builtinGlobs := by
    refine ⟨fun _ => .new, fun _ _ hf => absurd hf List.not_mem_nil, fun g f hg huser => ?_,
      fun g f hg _ => ?_⟩
    all_goals
      rcases eq_or_ne g allFilesGlob with rfl | hne
      · obtain rfl : Filters.nullFilter = f := Option.some.inj hg
        simp_all [Filters.nullFilter]
      · simp [init, update_of_ne hne] at hg
  obtain ⟨s, hload, -, hsound⟩ := load_invariant file
    (P := LoadedSound file.userGlobs file.builtinGlobs) hinit
    fun s s' hgood hs hloads => hs.loads hgood h hloads
  rw [hload]
  exact hsound.sound id

/-! ## Operations -/

/-- What an operation does is saved, and loaded as it was: the user id is not empty; a filter that
is known and added to a store changes nothing there unless a change is to be saved already, and has
the part of the store that its mark says; one with the mark of the user is chosen only if it is the
most recent one. -/
def Recorded (s : Mgr) : Op → Prop
  | .newUserFilter glob userId => userId ≠ some [] ∧ ∀ f ∈ s.filters glob,
      (f ∈ (s.contents userId).builtins ∨ f.description = f.glob) ∧
      (s.changed ∨ (s.contents userId).last = f ∧
        (f ∈ (s.contents userId).builtins ∨ (s.contents userId).users.head? = some f))
  | .newBuiltinFilter _ glob userId _ => userId ≠ some [] ∧ ∀ f ∈ s.filters glob,
      f.user = false ∧ f ∉ (s.contents userId).users ∧
      (s.changed ∨ (s.contents userId).last = f)
  | .setLastFilter userId row => userId ≠ some [] ∧
      ∀ f ∈ (s.stores userId).bind (·.filters[row]?.join),
        f.user → (s.contents userId).users.head? = some f
  | .initFilterCombo _ => True
  | .idle => True

instance (s : Mgr) : DecidablePred s.Recorded
  | .newUserFilter .. => inferInstanceAs (Decidable (_ ∧ _))
  | .newBuiltinFilter .. => inferInstanceAs (Decidable (_ ∧ _))
  | .setLastFilter .. => inferInstanceAs (Decidable (_ ∧ _))
  | .initFilterCombo _ => inferInstanceAs (Decidable True)
  | .idle => inferInstanceAs (Decidable True)

/-- Every operation of a run is recorded in its state. -/
def RecordedRun (o : HashOrder) (s : Mgr) : List Op → Prop
  | [] => True
  | op :: ops => s.Recorded op ∧ (s.step o op).RecordedRun o ops

/-- The user filter that a store gets with an operation. -/
def got (s : Mgr) (userId : Option Str) : Op → List Filter
  | .newUserFilter glob userId' =>
    if userId' = userId then
      ((s.newFilter glob glob true).map Prod.fst).toList.filter (· ∉ (s.contents userId).builtins)
    else []
  | _ => []

/-- The user filters that a store gets in a run, newest first. -/
def history (o : HashOrder) (s : Mgr) (userId : Option Str) : List Op → List Filter
  | [] => []
  | op :: ops => (s.step o op).history o userId ops ++ s.got userId op

/-- What is kept between the operations that are recorded. -/
structure Saved (s : Mgr) : Prop where
  sound : ∀ id, (s.contents id).Sound
  empty : s.contents (some []) = .new
  file : s.changed ∨ ∀ id, ((load s.file).contents id).shown = (s.contents id).shown

theorem Good.doSave (h : s.Good) (o : HashOrder) :
    (s.doSave o).Good ∧ (s.doSave o).contents = s.contents := by
  rw [Mgr.doSave]
  split_ifs
  · exact ⟨⟨h.null, h.glob, h.store, h.contents, h.userIds, h.nodup⟩, rfl⟩
  · exact ⟨⟨h.null, h.glob, h.store, h.contents, h.userIds, h.nodup⟩, rfl⟩

theorem good_step (h : s.Good) (o : HashOrder) (op : Op) : (s.step o op).Good := by
  cases op with
  | newUserFilter glob userId =>
    rcases h.newUserFilter glob userId with ⟨-, -, hsame⟩ | ⟨f, -, -, hgood, -⟩
    · rw [step, hsame]
      exact h
    · exact hgood
  | newBuiltinFilter description glob userId position =>
    rcases h.newBuiltinFilter description glob userId position with
      ⟨-, -, hsame⟩ | ⟨f, i, -, -, hgood, -⟩
    · rw [step, hsame]
      exact h
    · exact hgood
  | setLastFilter userId row =>
    rcases h.setLastFilter userId row with hsame | ⟨f, hf, -, hset⟩
    · rw [step, hsame]
      exact h
    · rw [step, hset]
      exact (h.setLast hf).1
  | initFilterCombo userId => exact (h.initFilterCombo userId).1
  | idle =>
    rw [step]
    split_ifs
    · exact (h.doSave o).1
    · exact h

/-- The user filters of a store after an operation. -/
theorem users_step (h : s.Good) (o : HashOrder) (op : Op) (id : Option Str) :
    ((s.step o op).contents id).users =
      (recent (s.got id op ++ (s.contents id).users)).take numUserFilters := by
  have hsame : (s.contents id).users =
      (recent ([] ++ (s.contents id).users)).take numUserFilters := by
    rw [List.nil_append, recent_of_nodup (h.contents id).users,
      List.take_of_length_le (h.contents id).length]
  cases op with
  | newUserFilter glob userId =>
    rw [step, got]
    rcases h.newUserFilter glob userId with
      ⟨hnone, hrefused, hs⟩ | ⟨f, hglob, hgives, -, hputs⟩
    · rw [hs, newFilter, hnone, hrefused]
      simpa using hsame
    · rw [hputs.contents]
      by_cases hid : userId = id
      · subst hid
        have hnew : (s.newFilter glob glob true).map Prod.fst = some f := by
          rcases hgives with hknown | ⟨hnone, rfl⟩
          · rw [newFilter, hknown]
            rfl
          · have hadd := hputs.filters
            rw [Mgr.newUserFilter, newFilter, hnone] at hadd
            rw [newFilter, hnone]
            cases hfilter : filterNew glob glob true with
            | none =>
              rw [hfilter] at hadd
              have := congrFun hadd glob
              simp [hnone] at this
            | some f =>
              rw [filterNew] at hfilter
              split_ifs at hfilter
              rw [← Option.some.inj hfilter]
              rfl
        rw [update_self, if_pos rfl, hnew, Contents.addUser]
        by_cases hb : f ∈ (s.contents userId).builtins
        · simpa [hb] using hsame
        · have hgot : (some f).toList.filter (· ∉ (s.contents userId).builtins) = [f] := by
            simp [hb]
          rw [hgot, if_neg hb, List.singleton_append, ← touch_take_recent]
          exact congrArg (touch numUserFilters f) hsame
      · rw [update_of_ne (Ne.symm hid), if_neg hid]
        exact hsame
  | newBuiltinFilter description glob userId position =>
    rcases h.newBuiltinFilter description glob userId position with
      ⟨-, -, hs⟩ | ⟨f, i, -, -, -, hputs⟩
    · rw [step, hs]
      exact hsame
    · rw [step, hputs.contents]
      rcases eq_or_ne id userId with rfl | hne
      · rw [update_self]
        exact hsame
      · rw [update_of_ne hne]
        exact hsame
  | setLastFilter userId row =>
    rcases h.setLastFilter userId row with hs | ⟨f, hf, -, hset⟩
    · rw [step, hs]
      exact hsame
    · rw [step, hset, (h.setLast hf).2.2.1]
      rcases eq_or_ne id userId with rfl | hne
      · rw [update_self]
        exact hsame
      · rw [update_of_ne hne]
        exact hsame
  | initFilterCombo userId =>
    rw [step, (h.initFilterCombo userId).2.1]
    exact hsame
  | idle =>
    rw [step]
    split_ifs
    · rw [(h.doSave o).2]
      exact hsame
    · exact hsame

/-- The user filters of a store are the most recent ones that it got. -/
theorem users_run (h : s.Good) (o : HashOrder) (ops : List Op) (id : Option Str) :
    ((s.run o ops).contents id).users =
      (recent (s.history o id ops ++ (s.contents id).users)).take numUserFilters := by
  induction ops generalizing s with
  | nil =>
    rw [history, List.nil_append, recent_of_nodup (h.contents id).users,
      List.take_of_length_le (h.contents id).length]
    rfl
  | cons op ops ih =>
    rw [history, List.append_assoc, ← take_recent_append, ← users_step h o op id]
    exact ih (good_step h o op)

/-! ## What is saved -/

namespace Saved

variable {c : Contents}

/-- A store has got other contents, which are to be saved if they are others. -/
theorem puts (h : s.Saved) (hid : userId ≠ some []) (hc : c.Sound)
    (hfile : s'.file = s.file) (hcontents : s'.contents = update s.contents userId c)
    (hchanged : s.changed → s'.changed)
    (hsame : s'.changed = false → c.shown = (s.contents userId).shown) :
    s'.Saved := by
  refine ⟨fun id => ?_, ?_, ?_⟩
  · rw [hcontents]
    rcases eq_or_ne id userId with rfl | hne
    · rw [update_self]
      exact hc
    · rw [update_of_ne hne]
      exact h.sound id
  · rw [hcontents, update_of_ne hid.symm]
    exact h.empty
  · cases hs' : s'.changed with
    | true => exact .inl rfl
    | false =>
      refine .inr fun id => ?_
      have hload := h.file.resolve_left fun hs => by simp [hchanged hs] at hs'
      rw [hfile, hload, hcontents]
      rcases eq_or_ne id userId with rfl | hne
      · rw [update_self, hsame hs']
      · rw [update_of_ne hne]

theorem doSave (h : s.Saved) (hgood : s.Good) (o : HashOrder) (id : Option Str) :
    ((load (s.doSave o).file).contents id).shown = (s.contents id).shown := by
  cases hchanged : s.changed with
  | true => exact load_doSave o hgood h.sound h.empty hchanged id
  | false =>
    rw [Mgr.doSave, hchanged]
    exact h.file.resolve_left (by simp [hchanged]) id

theorem step (h : s.Saved) (hgood : s.Good) (o : HashOrder) {op : Op} (hop : s.Recorded op) :
    (s.step o op).Saved := by
  cases op with
  | newUserFilter glob userId =>
    obtain ⟨hid, hop⟩ := hop
    rw [Mgr.step]
    rcases hgood.newUserFilter glob userId with ⟨-, -, hs⟩ | ⟨f, hglob, hgives, -, hputs⟩
    · rw [hs]
      exact h
    · refine h.puts hid ((h.sound userId).addUser ?_) hputs.file hputs.contents
        (by simp +contextual [hputs.changed]) fun hs' => ?_
      · rcases hgives with hknown | ⟨-, rfl⟩
        · exact (hop f hknown).1
        · exact .inr rfl
      · rw [hputs.changed, Bool.or_eq_false_iff, hglob] at hs'
        rcases hgives with hknown | ⟨hnone, -⟩
        · obtain ⟨hlast, hhead⟩ := (hop f hknown).2.resolve_left (by simp [hs'.1])
          have hsame : (s.contents userId).addUser f = s.contents userId := by
            have hlen := (hgood.contents userId).length
            generalize s.contents userId = c at hlast hhead hlen
            obtain ⟨builtins, users, last⟩ := c
            obtain rfl : last = f := hlast
            rw [Contents.addUser]
            split_ifs with hb
            · rfl
            · obtain ⟨users, rfl⟩ : ∃ users', users = last :: users' := by
                cases users with
                | nil => simp [hb] at hhead
                | cons f users => exact ⟨users, by simpa [hb] using hhead⟩
              simp only [touch_head hlen]
          rw [hsame]
        · simp [hnone] at hs'
  | newBuiltinFilter description glob userId position =>
    obtain ⟨hid, hop⟩ := hop
    rw [Mgr.step]
    rcases hgood.newBuiltinFilter description glob userId position with
      ⟨-, -, hs⟩ | ⟨f, i, hglob, hgives, -, hputs⟩
    · rw [hs]
      exact h
    · have hf : f.user = false ∧ f ∉ (s.contents userId).users := by
        rcases hgives with hknown | ⟨hnone, rfl⟩
        · exact ⟨(hop f hknown).1, (hop f hknown).2.1⟩
        · refine ⟨rfl, fun hmem => ?_⟩
          have hknown := (hgood.contents userId).known _ (.inr (.inl hmem))
          rw [hnone] at hknown
          simp at hknown
      refine h.puts hid ((h.sound userId).addBuiltin hf.1 hf.2 i) hputs.file hputs.contents
        (by simp +contextual [hputs.changed]) fun hs' => ?_
      rw [hputs.changed, Bool.or_eq_false_iff, hglob] at hs'
      rcases hgives with hknown | ⟨hnone, -⟩
      · have hlast := (hop f hknown).2.2.resolve_left (by simp [hs'.1])
        rw [Contents.shown, Contents.shown, hlast]
        rfl
      · simp [hnone] at hs'
  | setLastFilter userId row =>
    obtain ⟨hid, hop⟩ := hop
    rw [Mgr.step]
    rcases hgood.setLastFilter userId row with hs | ⟨f, hf, hrow, hset⟩
    · rw [hs]
      exact h
    · obtain ⟨-, -, hcontents, hchanged, hfile⟩ := hgood.setLast hf
      rw [hset]
      refine h.puts hid ((h.sound userId).choose (hop f hrow)) hfile hcontents
        (by simp +contextual [hchanged]) fun hs' => ?_
      rw [hchanged, Bool.or_eq_false_iff] at hs'
      have hlast : (s.contents userId).last = f := by simpa using hs'.2
      rw [Contents.shown, Contents.shown, ← hlast]
      rfl
  | initFilterCombo userId =>
    obtain ⟨-, hcontents, -, hchanged, hfile⟩ := hgood.initFilterCombo userId
    rw [Mgr.step]
    refine ⟨?_, ?_, ?_⟩
    · rw [hcontents]
      exact h.sound
    · rw [hcontents]
      exact h.empty
    · rw [hcontents, hchanged, hfile]
      exact h.file
  | idle =>
    rw [Mgr.step]
    split_ifs
    · have hcontents := (hgood.doSave o).2
      refine ⟨?_, ?_, .inr fun id => ?_⟩
      · rw [hcontents]
        exact h.sound
      · rw [hcontents]
        exact h.empty
      · rw [hcontents]
        exact h.doSave hgood o id
    · exact h

theorem run (h : s.Saved) (hgood : s.Good) {o : HashOrder} {ops : List Op}
    (hops : s.RecordedRun o ops) : (s.run o ops).Saved := by
  induction ops generalizing s with
  | nil => exact h
  | cons op ops ih => exact ih (h.step hgood o hops.1) (good_step hgood o op) hops.2

end Saved

theorem good_run (h : s.Good) (o : HashOrder) (ops : List Op) : (s.run o ops).Good := by
  induction ops generalizing s with
  | nil => exact h
  | cons op ops ih => exact ih (good_step h o op)

end Mgr

/-! ## Every run -/

/-- In every run the rows of a store are its built-in filters, then one separator if there are user
filters too, then the user filters it got last, the most recent one first and none twice. If each
operation is recorded, then what is saved and loaded is what the stores have, and no filter is in
both parts of a store. -/
theorem run_saves (o : HashOrder) (file : File) (ops : List Mgr.Op) :
    let s := (load file).run o ops
    (∀ id store, s.stores id = some store → ∃ builtins users,
      store.Holds builtins users ∧ builtins.Nodup ∧ users.Nodup ∧
        users.length ≤ numUserFilters ∧
        users = (recent ((load file).history o id ops ++ ((load file).contents id).users)).take
          numUserFilters ∧
        (file.Apart → (load file).RecordedRun o ops → ∀ f ∈ builtins, f ∉ users)) ∧
    (file.Apart → (load file).RecordedRun o ops →
      ∀ id, ((load (s.doSave o).file).contents id).shown = (s.contents id).shown) := by
  intro s
  have hload := Mgr.good_load file
  have hgood : s.Good := Mgr.good_run hload o ops
  have hsaved : file.Apart → (load file).RecordedRun o ops → s.Saved := fun hapart hops =>
    Mgr.Saved.run ⟨Mgr.sound_load hapart, Mgr.contents_load_empty file,
      .inr fun id => by rw [Mgr.file_load]⟩ hload hops
  refine ⟨fun id store hstore => ?_, fun hapart hops => (hsaved hapart hops).doSave hgood o⟩
  have hc := hgood.contents id
  exact ⟨_, _, (hgood.store id store hstore).1, hc.builtins, hc.users, hc.length,
    Mgr.users_run hload o ops id, fun hapart hops => ((hsaved hapart hops).sound id).apart⟩

/-- Two stores get a filter, a built-in filter is chosen and the save is run in between. -/
theorem run_saves_two_stores :
    let o : HashOrder := ⟨id, fun _ => .refl _⟩
    let ops : List Mgr.Op := [.newUserFilter ['a'] none, .newUserFilter ['a'] (some ['x']),
      .newBuiltinFilter ['C'] ['c'] none 0, .idle, .setLastFilter none 3]
    let s := (load []).run o ops
    (load []).RecordedRun o ops ∧ (s.contents none).users.map Filter.glob = [['a']] ∧
      ∀ id, ((load (s.doSave o).file).contents id).shown = (s.contents id).shown :=
  have hops : (load []).RecordedRun ⟨id, fun _ => .refl _⟩ [.newUserFilter ['a'] none,
      .newUserFilter ['a'] (some ['x']), .newBuiltinFilter ['C'] ['c'] none 0, .idle,
      .setLastFilter none 3] :=
    ⟨by decide, by decide, by decide, trivial, by decide, trivial⟩
  ⟨hops, by decide, (run_saves _ [] _).2 (by decide) hops⟩

/-- A filter that another store has is not saved, and a user filter that is chosen again comes
before the others when it is loaded. -/
theorem run_loses_filters :
    let o : HashOrder := ⟨id, fun _ => .refl _⟩
    let known := (load []).run o
      [.newUserFilter ['a'] none, .idle, .newUserFilter ['a'] (some ['x'])]
    let chosen := (load []).run o
      [.newUserFilter ['a'] none, .newUserFilter ['b'] none, .setLastFilter none 3]
    (known.contents (some ['x'])).users.map Filter.glob = [['a']] ∧
      ((load (known.doSave o).file).contents (some ['x'])).users = [] ∧
      (chosen.contents none).users.map Filter.glob = [['b'], ['a']] ∧
      ((load (chosen.doSave o).file).contents none).users.map Filter.glob = [['a'], ['b']] := by
  decide

end Medit.Filters
