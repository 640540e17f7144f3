import Medit.Library.Machine
import Medit.Library.Priority

/-!
# Settings of documents

Translation of `mooedit/mooeditconfig.cpp`. A setting is set by sources, in the configuration of one
document or in the global one, and every configuration has one value of each setting, with its
source. The settings are numbered from 0 here, and a configuration is known by its address.

## Main definitions

* `EditConfigs` — the settings, the global configuration and those of the documents.
* `ConfigValue.rank` — the rank of a value, by its source.

## Main results

* `EditConfigs.getElem?_updatePropFromGlobal`, `EditConfigs.setValue_fst` — both keep the value of
  the better source.
* `EditConfigs.setValist_spec`, `EditConfigs.getElem?_foldl` — the loops, one setting at a time.
-/

namespace Medit

inductive MooEditConfigSource
  | user | file | filename | lang | auto
deriving DecidableEq

/-- The numbers of the enumeration. -/
def MooEditConfigSource.rank : MooEditConfigSource → ℕ
  | user => 0
  | file => 10
  | filename => 20
  | lang => 30
  | auto => 40

theorem MooEditConfigSource.rank_injective : Function.Injective rank := by
  intro s t h
  cases s <;> cases t <;> simp_all [rank]

theorem MooEditConfigSource.rank_le_auto (s : MooEditConfigSource) : s.rank ≤ auto.rank := by
  cases s <;> simp [rank]

/-- A setting: its name, its default, and how its values are read from strings. -/
structure ConfigSpec (V : Type*) where
  name : List Char
  canonical : '_' ∉ name
  valueDefault : V
  fromString : List Char → Option V

structure ConfigValue (V : Type*) where
  gval : V
  source : MooEditConfigSource
deriving DecidableEq

/-- The settings with their aliases, the values of the global configuration, and those of each
document. -/
structure EditConfigs (V : Type*) where
  vars : List (ConfigSpec V)
  aliases : List Char → Option (List Char)
  global : List (ConfigValue V)
  instances : ℕ → Option (List (ConfigValue V))

/-- `g_strdelimit`, for one delimiter -/
def strdelimit (s : List Char) (delimiter new : Char) : List Char :=
  s.map fun c => if c = delimiter then new else c

namespace EditConfigs

variable {V : Type*} [DecidableEq V] [Inhabited V]

/-- Before anything has been installed. -/
def globalInit : EditConfigs V := ⟨[], fun _ => none, [], fun _ => none⟩

/-- `update_prop_from_global`. A value that is grown has the zero of its type first. -/
def updatePropFromGlobal (global : List (ConfigValue V)) (values : List (ConfigValue V)) (prop : ℕ) :
    List (ConfigValue V) :=
  match global[prop]? with
  | none => values
  | some value =>
    let values := if prop = values.length then values ++ [⟨default, value.source⟩] else values
    match values[prop]? with
    | none => values
    | some old => if value.source.rank ≤ old.source.rank then values.set prop value else values

/-- `global_changed` -/
def globalChanged (c : EditConfigs V) (prop : ℕ) : EditConfigs V :=
  { c with instances := fun d =>
      (c.instances d).map (updatePropFromGlobal c.global · prop) }

/-- `moo_edit_config_lookup_spec` -/
def lookupSpec (c : EditConfigs V) (name : List Char) (tryAlias : Bool) : Option ℕ :=
  let normName := strdelimit name '_' '-'
  let realName := if tryAlias then (c.aliases normName).getD normName else normName
  c.vars.findIdx? (·.name = realName)

/-- `moo_edit_config_install_setting` -/
def installSetting (c : EditConfigs V) (pspec : ConfigSpec V) : EditConfigs V :=
  if (c.lookupSpec pspec.name true).isSome then c
  else
    { c with
      vars := c.vars ++ [pspec]
      global := c.global ++ [⟨pspec.valueDefault, .auto⟩] : EditConfigs V }.globalChanged
        c.vars.length

/-- `moo_edit_config_install_alias` -/
def installAlias (c : EditConfigs V) (name other : List Char) : EditConfigs V :=
  match (c.lookupSpec name false).bind (c.vars[·]?) with
  | none => c
  | some pspec =>
    if (c.lookupSpec other true).isSome ∨ (c.aliases other).isSome then c
    else
      { c with aliases := fun s =>
          if s = strdelimit other '-' '_' ∨ s = strdelimit other '_' '-' then some pspec.name
          else c.aliases s }

/-- `moo_edit_config_new`, at an address. -/
def new (c : EditConfigs V) (d : ℕ) : EditConfigs V :=
  { c with instances := Function.update c.instances d (some c.global) }

/-- `moo_edit_config_finalize` -/
def finalize (c : EditConfigs V) (d : ℕ) : EditConfigs V :=
  { c with instances := Function.update c.instances d none }

/-- `moo_edit_config_set_value`, and whether it notifies. -/
def setValue (source : MooEditConfigSource) (values : List (ConfigValue V)) (prop : ℕ) (value : V) :
    List (ConfigValue V) × Bool :=
  match values[prop]? with
  | none => (values, false)
  | some val =>
    if source.rank ≤ val.source.rank ∧ (val.source ≠ source ∨ val.gval ≠ value) then
      (values.set prop ⟨value, source⟩, true)
    else (values, false)

/-- The settings that the loop of `moo_edit_config_set_valist` gets to. -/
def collect (c : EditConfigs V) : List (List Char × V) → List (ℕ × V)
  | [] => []
  | (name, value) :: rest =>
    match c.lookupSpec name false with
    | none => []
    | some prop => (prop, value) :: c.collect rest

/-- The loop of `moo_edit_config_set_valist`, with the settings that notify when it is over. -/
def setValist (source : MooEditConfigSource) (settings : List (ℕ × V))
    (values : List (ConfigValue V)) : List (ConfigValue V) × List ℕ :=
  settings.foldl (fun (values, queue) (prop, value) =>
    let (values, notified) := setValue source values prop value
    (values, if notified ∧ prop ∉ queue then prop :: queue else queue)) (values, [])

/-- `moo_edit_config_set` -/
def set (c : EditConfigs V) (d : ℕ) (source : MooEditConfigSource)
    (pairs : List (List Char × V)) : EditConfigs V :=
  match c.instances d with
  | none => c
  | some values =>
    { c with instances :=
        Function.update c.instances d (some (setValist source (c.collect pairs) values).1) }

/-- `moo_edit_config_set_global` -/
def setGlobal (c : EditConfigs V) (source : MooEditConfigSource)
    (pairs : List (List Char × V)) : EditConfigs V :=
  let (values, queue) := setValist source (c.collect pairs) c.global
  queue.foldl globalChanged { c with global := values }

/-- The setting that `moo_edit_config_parse_one` sets, and its value. -/
def parsed (c : EditConfigs V) (name value : List Char) : Option (ℕ × V) :=
  (c.lookupSpec name true).bind fun prop => c.vars[prop]?.bind fun pspec =>
    (pspec.fromString value).map (prop, ·)

/-- `moo_edit_config_parse_one` -/
def parseOne (c : EditConfigs V) (d : ℕ) (name value : List Char)
    (source : MooEditConfigSource) : EditConfigs V :=
  match c.instances d, c.parsed name value with
  | some values, some (prop, value) =>
    { c with instances :=
        Function.update c.instances d (some (setValue source values prop value).1) }
  | _, _ => c

/-- One setting in the loop of `moo_edit_config_unset_by_source`. -/
def unsetValue (c : EditConfigs V) (source : MooEditConfigSource) (values : List (ConfigValue V))
    (prop : ℕ) : List (ConfigValue V) :=
  match values[prop]?, c.vars[prop]? with
  | some val, some pspec =>
    if val.source.rank < source.rank then values
    else updatePropFromGlobal c.global (values.set prop ⟨pspec.valueDefault, .auto⟩) prop
  | _, _ => values

/-- `moo_edit_config_unset_by_source`, of a document. -/
def unsetBySource (c : EditConfigs V) (d : ℕ) (source : MooEditConfigSource) : EditConfigs V :=
  match c.instances d with
  | none => c
  | some values =>
    let values := (List.range c.vars.length).foldl (c.unsetValue source) values
    { c with instances := Function.update c.instances d (some values) }

end EditConfigs

/-! ## Single settings -/

/-- Values are ranked by their sources. -/
def ConfigValue.rank {V : Type*} (v : ConfigValue V) : ℕ := v.source.rank

namespace EditConfigs

open Priority ConfigValue

variable {V : Type*} {c : EditConfigs V} {global values : List (ConfigValue V)}
  {g old : ConfigValue V} {source : MooEditConfigSource} {prop q : ℕ} {value : V}

theorem updatePropFromGlobal_grow [Inhabited V] (hg : global[prop]? = some g) (hlen : values.length = prop) :
    updatePropFromGlobal global values prop = values ++ [g] := by
  subst hlen
  simp [updatePropFromGlobal, hg]

@[simp] theorem length_updatePropFromGlobal [Inhabited V] (hlen : values.length = global.length) :
    (updatePropFromGlobal global values prop).length = values.length := by
  unfold updatePropFromGlobal
  cases hg : global[prop]? with
  | none => rfl
  | some g =>
    have hlt : prop < values.length := hlen ▸ (List.getElem?_eq_some_iff.1 hg).1
    simp only [hlt.ne, if_false, List.getElem?_eq_getElem hlt]
    split <;> simp

theorem getElem?_updatePropFromGlobal [Inhabited V] (hlen : values.length = global.length)
    (hg : global[q]? = some g) (hold : values[q]? = some old) :
    (updatePropFromGlobal global values prop)[q]? =
      some (if q = prop then pick rank g old else old) := by
  unfold updatePropFromGlobal
  cases hg' : global[prop]? with
  | none =>
    have hne : q ≠ prop := by
      rintro rfl
      simp [hg] at hg'
    simp [hne, hold]
  | some g' =>
    have hlt : prop < values.length := hlen ▸ (List.getElem?_eq_some_iff.1 hg').1
    simp only [hlt.ne, if_false, List.getElem?_eq_getElem hlt, pick, rank]
    by_cases hq : q = prop
    · subst hq
      grind
    · split <;> grind

/-- What is set is the value of the better source. -/
theorem setValue_fst [DecidableEq V] (hold : values[prop]? = some old) :
    (setValue source values prop value).1 = values.set prop (pick rank ⟨value, source⟩ old) := by
  have hself : values.set prop old = values := by
    obtain ⟨hlt, rfl⟩ := List.getElem?_eq_some_iff.1 hold
    exact List.set_getElem_self hlt
  obtain ⟨gval, src⟩ := old
  simp only [setValue, hold, pick, rank]
  split <;> grind

/-- A value that is not the new one has not been notified. -/
theorem setValue_snd [DecidableEq V] (hold : values[prop]? = some old) :
    if (setValue source values prop value).2 then pick rank ⟨value, source⟩ old = ⟨value, source⟩
    else pick rank ⟨value, source⟩ old = old := by
  obtain ⟨gval, src⟩ := old
  simp only [setValue, hold, pick, rank]
  grind

/-! ## Loops over settings -/

/-- A loop that changes the value of each setting on its own. -/
theorem getElem?_foldl {f : List (ConfigValue V) → ℕ → List (ConfigValue V)}
    {change : ℕ → ConfigValue V → ConfigValue V} {n : ℕ}
    (hf : ∀ values prop, values.length = n → (f values prop).length = n ∧
      ∀ q old, values[q]? = some old →
        (f values prop)[q]? = some (if q = prop then change q old else old))
    {props : List ℕ} (hprops : props.Nodup) (hlen : values.length = n) :
    (props.foldl f values).length = n ∧ ∀ q old, values[q]? = some old →
      (props.foldl f values)[q]? = some (if q ∈ props then change q old else old) := by
  induction props generalizing values with
  | nil => simpa using hlen
  | cons prop props ih =>
    obtain ⟨hnot, hprops⟩ := List.nodup_cons.1 hprops
    obtain ⟨hlen', hget⟩ := hf values prop hlen
    obtain ⟨hlen'', hrest⟩ := ih hprops hlen'
    refine ⟨hlen'', fun q old hold => ?_⟩
    rw [List.foldl_cons, hrest q _ (hget q old hold)]
    grind

/-- A loop over settings that have changed globally. -/
theorem getElem?_foldl_updatePropFromGlobal [Inhabited V] {queue : List ℕ} (hqueue : queue.Nodup)
    (hlen : values.length = global.length) :
    (queue.foldl (updatePropFromGlobal global) values).length = global.length ∧
      ∀ q g old, global[q]? = some g → values[q]? = some old →
        (queue.foldl (updatePropFromGlobal global) values)[q]? =
          some (if q ∈ queue then pick rank g old else old) := by
  let change : ℕ → ConfigValue V → ConfigValue V := fun q old =>
    (global[q]?).elim old (pick rank · old)
  have hstep : ∀ values prop, values.length = global.length →
      (updatePropFromGlobal global values prop).length = global.length ∧
        ∀ q old, values[q]? = some old → (updatePropFromGlobal global values prop)[q]? =
          some (if q = prop then change q old else old) := by
    intro values prop hlen
    refine ⟨(length_updatePropFromGlobal hlen).trans hlen, fun q old hold => ?_⟩
    have hq : q < global.length := hlen ▸ (List.getElem?_eq_some_iff.1 hold).1
    have hg : global[q]? = some global[q] := List.getElem?_eq_getElem hq
    simpa [change, hg] using getElem?_updatePropFromGlobal hlen hg hold
  obtain ⟨hlen', hget⟩ := getElem?_foldl hstep hqueue hlen
  exact ⟨hlen', fun q g old hg hold => by simpa [change, hg] using hget q old hold⟩

theorem foldl_globalChanged [Inhabited V] (queue : List ℕ) (c : EditConfigs V) :
    queue.foldl globalChanged c = ⟨c.vars, c.aliases, c.global, fun d =>
      (c.instances d).map fun values => queue.foldl (updatePropFromGlobal c.global) values⟩ := by
  induction queue generalizing c with
  | nil => simp
  | cons prop queue ih =>
    rw [List.foldl_cons, ih]
    simp [globalChanged, Function.comp_def]

/-- The new value of a setting that is set at most once, and whether it notifies. -/
structure SetOnce [DecidableEq V] (source : MooEditConfigSource) (settings : List (ℕ × V)) (q : ℕ)
    (old new : ConfigValue V) (notified : Prop) : Prop where
  other : q ∉ settings.map (·.1) → new = old ∧ ¬ notified
  picked : ∀ value, (q, value) ∈ settings → new = pick rank ⟨value, source⟩ old
  noticed : notified → ∀ value, (q, value) ∈ settings → new = ⟨value, source⟩
  unnoticed : ¬ notified → new = old

theorem length_setValue [DecidableEq V] :
    (setValue source values prop value).1.length = values.length := by
  unfold setValue
  split
  · rfl
  · split <;> simp

theorem getElem?_setValue [DecidableEq V] (hold : values[q]? = some old) :
    (setValue source values prop value).1[q]? =
      some (if q = prop then pick rank ⟨value, source⟩ old else old) := by
  cases hval : values[prop]? with
  | none => grind [setValue]
  | some val =>
    rw [setValue_fst hval]
    grind

/-- Each setting is set on its own, and is in the queue once when it notifies. -/
theorem setValist_spec [DecidableEq V] {settings : List (ℕ × V)}
    (hnodup : (settings.map (·.1)).Nodup) :
    let r := setValist source settings values
    r.1.length = values.length ∧ r.2.Nodup ∧ ∀ q old, values[q]? = some old →
      ∃ new, r.1[q]? = some new ∧ SetOnce source settings q old new (q ∈ r.2) := by
  suffices h : ∀ values queue, queue.Nodup → (∀ s ∈ settings, s.1 ∉ queue) →
      let r := settings.foldl (fun (values, queue) (prop, value) =>
        let (values, notified) := setValue source values prop value
        (values, if notified ∧ prop ∉ queue then prop :: queue else queue)) (values, queue)
      r.1.length = values.length ∧ r.2.Nodup ∧ ∀ q old, values[q]? = some old →
        ∃ new, r.1[q]? = some new ∧
          (q ∉ settings.map (·.1) → new = old ∧ (q ∈ r.2 ↔ q ∈ queue)) ∧
          (q ∉ queue → SetOnce source settings q old new (q ∈ r.2)) by
    obtain ⟨hlen, hqueue, hget⟩ := h values [] List.nodup_nil (by simp)
    refine ⟨hlen, hqueue, fun q old hold => ?_⟩
    obtain ⟨new, hnew, -, honce⟩ := hget q old hold
    exact ⟨new, hnew, honce (by simp)⟩
  induction settings with
  | nil =>
    intro values queue hqueue _
    refine ⟨rfl, hqueue, fun q old hold => ⟨old, hold, by simp, fun hq => ?_⟩⟩
    exact ⟨by simp [hq], by simp, by simp, by simp⟩
  | cons s settings ih =>
    obtain ⟨prop, value⟩ := s
    obtain ⟨hnot, hnodup⟩ := List.nodup_cons.1 hnodup
    intro values queue hqueue hdisj
    have hprop : prop ∉ queue := hdisj (prop, value) (by simp)
    simp only [List.foldl_cons]
    set next := setValue source values prop value with hnext
    set queue' := if next.2 ∧ prop ∉ queue then prop :: queue else queue with hqueue'
    have hmem : ∀ q, q ∈ queue' ↔ q ∈ queue ∨ q = prop ∧ next.2 := by grind
    obtain ⟨hlen, hq, hget⟩ := ih hnodup next.1 queue' (by grind) (by grind)
    refine ⟨hlen.trans length_setValue, hq, fun q old hold => ?_⟩
    obtain ⟨new, hnew, hother, honce⟩ := hget q _ (getElem?_setValue hold)
    refine ⟨new, hnew, ?_, ?_⟩
    · grind
    · intro hfree
      by_cases heq : q = prop
      · -- the setting is set here, and the rest leaves it alone
        subst heq
        obtain ⟨rfl, hin⟩ := hother hnot
        have hsnd := @setValue_snd V values old source q value _ hold
        have honly : ∀ v, (q, v) ∈ (q, value) :: settings → v = value := by grind
        constructor
        · simp
        · intro v hv
          simp [honly v hv]
        · intro hnotified v hv
          grind
        · grind
      · obtain ⟨hskip, hpicked, hnoticed, hunnoticed⟩ := honce (by grind)
        constructor
        · simpa [heq] using hskip
        · grind
        · grind
        · grind

/-- A loop over all settings that are unset. -/
theorem getElem?_foldl_unsetValue [Inhabited V] (hglobal : c.global.length = c.vars.length)
    (hlen : values.length = c.vars.length) :
    ((List.range c.vars.length).foldl (c.unsetValue source) values).length = c.vars.length ∧
      ∀ (q : ℕ) (g old : ConfigValue V), c.global[q]? = some g → values[q]? = some old →
        ((List.range c.vars.length).foldl (c.unsetValue source) values)[q]? =
          some (if old.source.rank < source.rank then old else g) := by
  let change : ℕ → ConfigValue V → ConfigValue V := fun q old =>
    if old.source.rank < source.rank then old else (c.global[q]?).getD old
  have hstep : ∀ values prop, values.length = c.vars.length →
      (c.unsetValue source values prop).length = c.vars.length ∧
        ∀ q old, values[q]? = some old → (c.unsetValue source values prop)[q]? =
          some (if q = prop then change q old else old) := by
    intro values prop hlen
    unfold unsetValue
    by_cases hp : prop < c.vars.length
    · have hval : values[prop]? = some values[prop] := List.getElem?_eq_getElem (hlen ▸ hp)
      have hvar : c.vars[prop]? = some c.vars[prop] := List.getElem?_eq_getElem hp
      simp only [hval, hvar]
      split
      · refine ⟨hlen, fun q old hold => ?_⟩
        grind
      · have hlen' : (values.set prop ⟨c.vars[prop].valueDefault, .auto⟩).length =
            c.global.length := by simp [hlen, hglobal]
        refine ⟨(length_updatePropFromGlobal hlen').trans (by simpa using hlen), fun q old hold => ?_⟩
        have hq : q < c.global.length := by
          rw [hglobal, ← hlen]
          exact (List.getElem?_eq_some_iff.1 hold).1
        have hg : c.global[q]? = some c.global[q] := List.getElem?_eq_getElem hq
        by_cases heq : q = prop
        · -- a value of the default source is replaced by any global one
          subst heq
          have hset : (values.set q ⟨c.vars[q].valueDefault, .auto⟩)[q]? =
              some ⟨c.vars[q].valueDefault, .auto⟩ := by grind
          rw [getElem?_updatePropFromGlobal hlen' hg hset]
          have hauto := (c.global[q]).source.rank_le_auto
          grind [pick, rank]
        · have hset : (values.set prop ⟨c.vars[prop].valueDefault, .auto⟩)[q]? = some old := by
            grind
          rw [getElem?_updatePropFromGlobal hlen' hg hset]
          simp [heq]
    · have hnone : values[prop]? = none := List.getElem?_eq_none (by omega)
      simp only [hnone]
      refine ⟨hlen, fun q old hold => ?_⟩
      grind
  obtain ⟨hlen', hget⟩ := getElem?_foldl hstep List.nodup_range hlen
  refine ⟨hlen', fun q g old hg hold => ?_⟩
  have hq : q < c.vars.length := hlen ▸ (List.getElem?_eq_some_iff.1 hold).1
  simpa [change, hg, hq] using hget q old hold

end EditConfigs

end Medit
