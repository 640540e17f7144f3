import Medit.Config.EditConfig

/-!
# The sources of settings

What the sources have set is kept beside the configurations, and every value of a document turns
out to be the best of it.

## Main definitions

* `ConfigWorld` — the configurations, with what has been set locally and globally.
* `ConfigWorld.Distinct` — a setting is not set by a source that has set it before.

## Main results

* `ConfigWorld.best_source_wins` — every document has the value of the best source, whatever the
  order was, and values that are unset go back to the global ones.
-/

namespace Medit

open Priority

variable {V : Type*} [DecidableEq V] [Inhabited V]

/-- What happens to configurations. -/
inductive ConfigEvent (V : Type*)
  | installSetting (pspec : ConfigSpec V)
  | installAlias (name other : List Char)
  | new (d : ℕ)
  | finalize (d : ℕ)
  | set (d : ℕ) (source : MooEditConfigSource) (pairs : List (List Char × V))
  | parseOne (d : ℕ) (name value : List Char) (source : MooEditConfigSource)
  | setGlobal (source : MooEditConfigSource) (pairs : List (List Char × V))
  | unsetBySource (d : ℕ) (source : MooEditConfigSource)

/-- The configurations. `locals` has what has been set and not unset for each document and setting,
and `globals` what has been set globally. -/
structure ConfigWorld (V : Type*) where
  configs : EditConfigs V
  locals : ℕ → ℕ → List (ConfigValue V)
  globals : ℕ → List (ConfigValue V)

namespace ConfigWorld

/-- Before anything has been installed. -/
def init : ConfigWorld V := ⟨.globalInit, fun _ _ => [], fun _ => []⟩

/-- What has been set, with one more source. -/
def record (l : ℕ → List (ConfigValue V)) (source : MooEditConfigSource) (settings : List (ℕ × V)) :
    ℕ → List (ConfigValue V) :=
  fun prop => l prop ++ (settings.filter (·.1 = prop)).map fun s => ⟨s.2, source⟩

def step (w : ConfigWorld V) : ConfigEvent V → ConfigWorld V
  | .installSetting pspec => { w with configs := w.configs.installSetting pspec }
  | .installAlias name other => { w with configs := w.configs.installAlias name other }
  | .new d =>
    -- the address of a configuration that is alive is not given again
    if (w.configs.instances d).isSome then w
    else { w with
      configs := w.configs.new d
      locals := Function.update w.locals d fun _ => [] }
  | .finalize d => { w with configs := w.configs.finalize d }
  | .set d source pairs =>
    { w with
      configs := w.configs.set d source pairs
      locals := Function.update w.locals d
        (record (w.locals d) source (w.configs.collect pairs)) }
  | .parseOne d name value source =>
    { w with
      configs := w.configs.parseOne d name value source
      locals := Function.update w.locals d
        (record (w.locals d) source (w.configs.parsed name value).toList) }
  | .setGlobal source pairs =>
    { w with
      configs := w.configs.setGlobal source pairs
      globals := record w.globals source (w.configs.collect pairs) }
  | .unsetBySource d source =>
    { w with
      configs := w.configs.unsetBySource d source
      locals := Function.update w.locals d fun prop =>
        (w.locals d prop).filter (·.source.rank < source.rank) }

/-- The source has not set the setting, for the document or globally. -/
def Fresh (w : ConfigWorld V) (source : MooEditConfigSource) (d prop : ℕ) : Prop :=
  ∀ e ∈ w.locals d prop ++ w.globals prop, e.source ≠ source

/-- No source sets a setting that it has set before. -/
def Distinct (w : ConfigWorld V) : ConfigEvent V → Prop
  | .set d source pairs =>
    ((w.configs.collect pairs).map (·.1)).Nodup ∧
      ∀ s ∈ w.configs.collect pairs, w.Fresh source d s.1
  | .parseOne d name value source => ∀ s ∈ w.configs.parsed name value, w.Fresh source d s.1
  | .setGlobal source pairs =>
    ((w.configs.collect pairs).map (·.1)).Nodup ∧
      ∀ s ∈ w.configs.collect pairs, ∀ d, w.Fresh source d s.1
  | _ => True

/-! ## What holds in every state -/

variable {w : ConfigWorld V} {l : ℕ → List (ConfigValue V)} {source : MooEditConfigSource}
  {settings : List (ℕ × V)} {q d : ℕ} {value : V}

/-- The value of a setting is the best of the entries. -/
abbrev Best (pspec : ConfigSpec V) (entries : List (ConfigValue V)) (v : ConfigValue V) : Prop :=
  IsBest ConfigValue.rank ⟨pspec.valueDefault, .auto⟩ entries v

structure Inv (w : ConfigWorld V) : Prop where
  length_global : w.configs.global.length = w.configs.vars.length
  length_instance : ∀ d values, w.configs.instances d = some values →
    values.length = w.configs.vars.length
  global_best : ∀ p pspec g, w.configs.vars[p]? = some pspec → w.configs.global[p]? = some g →
    Best pspec (w.globals p) g
  instance_best : ∀ d values, w.configs.instances d = some values → ∀ p pspec v,
    w.configs.vars[p]? = some pspec → values[p]? = some v →
      Best pspec (w.locals d p ++ w.globals p) v
  locals_nil : ∀ d p, w.configs.vars.length ≤ p → w.locals d p = []
  globals_nil : ∀ p, w.configs.vars.length ≤ p → w.globals p = []
  distinct : ∀ d p, ((w.locals d p ++ w.globals p).map ConfigValue.rank).Nodup

omit [DecidableEq V] [Inhabited V] in
theorem record_of_notMem (h : q ∉ settings.map (·.1)) : record l source settings q = l q := by
  have hnil : settings.filter (·.1 = q) = [] := by
    rw [List.filter_eq_nil_iff]
    grind
  simp [record, hnil]

omit [DecidableEq V] [Inhabited V] in
theorem record_of_mem (hnodup : (settings.map (·.1)).Nodup) (h : (q, value) ∈ settings) :
    record l source settings q = l q ++ [⟨value, source⟩] := by
  have hone : settings.filter (·.1 = q) = [(q, value)] := by
    induction settings with
    | nil => simp at h
    | cons s settings ih =>
      obtain ⟨hnot, hnodup⟩ := List.nodup_cons.1 hnodup
      rcases List.mem_cons.1 h with rfl | h
      · have hnil : settings.filter (·.1 = q) = [] := by
          rw [List.filter_eq_nil_iff]
          grind
        simp [hnil]
      · have hne : s.1 ≠ q := by
          rintro rfl
          exact hnot (List.mem_map.2 ⟨_, h, rfl⟩)
        simp [hne, ih hnodup h]
  simp [record, hone]

omit [DecidableEq V] [Inhabited V] in
theorem findIdx?_lt {c : EditConfigs V} {name : List Char} {tryAlias : Bool} {prop : ℕ}
    (h : c.lookupSpec name tryAlias = some prop) : prop < c.vars.length :=
  (List.findIdx?_eq_some_iff_findIdx_eq.1 h).1

omit [DecidableEq V] [Inhabited V] in
theorem lt_of_mem_collect {c : EditConfigs V} {pairs : List (List Char × V)} {s : ℕ × V}
    (h : s ∈ c.collect pairs) : s.1 < c.vars.length := by
  induction pairs with
  | nil => simp [EditConfigs.collect] at h
  | cons pair pairs ih =>
    obtain ⟨name, value⟩ := pair
    simp only [EditConfigs.collect] at h
    split at h
    · simp at h
    · next prop hprop =>
      rcases List.mem_cons.1 h with rfl | h
      · exact findIdx?_lt hprop
      · exact ih h

omit [DecidableEq V] [Inhabited V] in
/-- One more entry, of a source that is not among them. -/
theorem nodup_add {entries more : List (ConfigValue V)} {e : ConfigValue V}
    (hl : more.Perm (e :: entries)) (h : (entries.map ConfigValue.rank).Nodup)
    (hfresh : ∀ y ∈ entries, y.source ≠ e.source) : (more.map ConfigValue.rank).Nodup := by
  rw [(hl.map _).nodup_iff, List.map_cons, List.nodup_cons]
  refine ⟨fun hmem => ?_, h⟩
  obtain ⟨y, hy, hrank⟩ := List.mem_map.1 hmem
  exact hfresh y hy (MooEditConfigSource.rank_injective hrank)

omit [DecidableEq V] [Inhabited V] in
theorem perm_locals {a b : List (ConfigValue V)} {e : ConfigValue V} :
    (a ++ [e] ++ b).Perm (e :: (a ++ b)) := by
  simp

omit [DecidableEq V] [Inhabited V] in
theorem perm_globals {a b : List (ConfigValue V)} {e : ConfigValue V} :
    (a ++ (b ++ [e])).Perm (e :: (a ++ b)) := by
  rw [← List.append_assoc]
  exact List.perm_append_singleton _ _

omit [DecidableEq V] [Inhabited V] in
theorem rank_le_default {pspec : ConfigSpec V} (e : ConfigValue V) :
    e.rank ≤ (⟨pspec.valueDefault, .auto⟩ : ConfigValue V).rank := e.source.rank_le_auto

omit [DecidableEq V] [Inhabited V] in
theorem Inv.init : Inv (init : ConfigWorld V) := by
  constructor <;> simp [ConfigWorld.init, EditConfigs.globalInit]

theorem Inv.installSetting (h : w.Inv) (pspec : ConfigSpec V) :
    (w.step (.installSetting pspec)).Inv := by
  obtain ⟨hglobal, hinstance, hgbest, hbest, hlocals, hglobals, hdistinct⟩ := h
  unfold step EditConfigs.installSetting
  by_cases hname : (w.configs.lookupSpec pspec.name true).isSome
  · simp only [hname, if_true]
    exact ⟨hglobal, hinstance, hgbest, hbest, hlocals, hglobals, hdistinct⟩
  simp only [hname, EditConfigs.globalChanged]
  have hgrow : ∀ values : List (ConfigValue V), values.length = w.configs.vars.length →
      EditConfigs.updatePropFromGlobal (w.configs.global ++ [⟨pspec.valueDefault, .auto⟩]) values
        w.configs.vars.length = values ++ [⟨pspec.valueDefault, .auto⟩] := fun values hlen =>
    EditConfigs.updatePropFromGlobal_grow (by simp [← hglobal]) hlen
  have hnew : ∀ {values : List (ConfigValue V)}, values.length = w.configs.vars.length →
      ∀ {p pspec' v}, (w.configs.vars ++ [pspec])[p]? = some pspec' →
        (values ++ [⟨pspec.valueDefault, .auto⟩])[p]? = some v →
        w.configs.vars[p]? = some pspec' ∧ values[p]? = some v ∨
          p = w.configs.vars.length ∧ v = ⟨pspec'.valueDefault, .auto⟩ := by
    intro values hlen p pspec' v hvar hval
    grind
  constructor
  · simp [hglobal]
  · intro d values hvalues
    obtain ⟨old, hold, rfl⟩ := Option.map_eq_some_iff.1 hvalues
    simp [hgrow old (hinstance d old hold), hinstance d old hold]
  · intro p pspec' g hvar hg
    rcases hnew hglobal hvar hg with ⟨hvar, hg⟩ | ⟨rfl, rfl⟩
    · exact hgbest p pspec' g hvar hg
    · exact (hglobals _ le_rfl).symm ▸ IsBest.nil
  · intro d values hvalues p pspec' v hvar hv
    obtain ⟨old, hold, rfl⟩ := Option.map_eq_some_iff.1 hvalues
    rw [hgrow old (hinstance d old hold)] at hv
    rcases hnew (hinstance d old hold) hvar hv with ⟨hvar, hv⟩ | ⟨rfl, rfl⟩
    · exact hbest d old hold p pspec' v hvar hv
    · simp only [hlocals d _ le_rfl, hglobals _ le_rfl]
      exact IsBest.nil
  · intro d p hp
    exact hlocals d p (by simp at hp; omega)
  · intro p hp
    exact hglobals p (by simp at hp; omega)
  · exact hdistinct

theorem Inv.new (h : w.Inv) (d : ℕ) : (w.step (.new d)).Inv := by
  obtain ⟨hglobal, hinstance, hgbest, hbest, hlocals, hglobals, hdistinct⟩ := h
  unfold step EditConfigs.new
  by_cases halive : (w.configs.instances d).isSome
  · simp only [halive, if_true]
    exact ⟨hglobal, hinstance, hgbest, hbest, hlocals, hglobals, hdistinct⟩
  simp only [if_neg halive]
  constructor
  · exact hglobal
  · intro d' values
    simp only [Function.update_apply]
    grind
  · exact hgbest
  · intro d' values
    simp only [Function.update_apply]
    split
    · intro hvalues p pspec v hvar hv
      obtain rfl : w.configs.global = values := by simpa using hvalues
      simpa using hgbest p pspec v hvar hv
    · exact hbest d' values
  · intro d' p hp
    simp only [Function.update_apply]
    split
    · rfl
    · exact hlocals d' p hp
  · exact hglobals
  · intro d' p
    simp only [Function.update_apply]
    split
    · have hnodup := hdistinct d' p
      rw [List.map_append] at hnodup
      simpa using (List.nodup_append.1 hnodup).2.1
    · exact hdistinct d' p

theorem Inv.finalize (h : w.Inv) (d : ℕ) : (w.step (.finalize d)).Inv := by
  obtain ⟨hglobal, hinstance, hgbest, hbest, hlocals, hglobals, hdistinct⟩ := h
  refine ⟨hglobal, fun d' values hvalues => ?_, hgbest, fun d' values hvalues => ?_, hlocals, hglobals,
    hdistinct⟩ <;> by_cases hd : d' = d <;>
    simp only [step, EditConfigs.finalize, Function.update_apply, hd, if_true, if_false] at hvalues
  · simp at hvalues
  · exact hinstance d' values hvalues
  · simp at hvalues
  · exact hbest d' values hvalues

theorem Inv.installAlias (h : w.Inv) (name other : List Char) :
    (w.step (.installAlias name other)).Inv := by
  simp only [step, EditConfigs.installAlias]
  split
  · exact h
  · split
    · exact h
    · exact ⟨h.length_global, h.length_instance, h.global_best, h.instance_best, h.locals_nil,
        h.globals_nil, h.distinct⟩

omit [DecidableEq V] [Inhabited V] in
/-- New values of a document, with what has been set for it. -/
theorem Inv.update (h : w.Inv) {values new : List (ConfigValue V)} {locals : ℕ → List (ConfigValue V)}
    (hd : w.configs.instances d = some values) (hlen : new.length = values.length)
    (hnew : ∀ p pspec old v, w.configs.vars[p]? = some pspec → values[p]? = some old →
      new[p]? = some v → Best pspec (w.locals d p ++ w.globals p) old →
        Best pspec (locals p ++ w.globals p) v)
    (hnil : ∀ p, w.configs.vars.length ≤ p → locals p = [])
    (hnodup : ∀ p, ((locals p ++ w.globals p).map ConfigValue.rank).Nodup) :
    Inv { w with
      configs := { w.configs with instances := Function.update w.configs.instances d (some new) }
      locals := Function.update w.locals d locals } := by
  obtain ⟨hglobal, hinstance, hgbest, hbest, hlocals, hglobals, hdistinct⟩ := h
  constructor
  · exact hglobal
  · intro d' values'
    simp only [Function.update_apply]
    grind
  · exact hgbest
  · intro d' values'
    simp only [Function.update_apply]
    split
    · next heq =>
      subst heq
      intro hvalues p pspec v hvar hv
      obtain rfl : new = values' := by simpa using hvalues
      have hp : p < values.length := hlen ▸ (List.getElem?_eq_some_iff.1 hv).1
      have hold : values[p]? = some values[p] := List.getElem?_eq_getElem hp
      exact hnew p pspec _ v hvar hold hv (hbest d' values hd p pspec _ hvar hold)
    · exact hbest d' values'
  · intro d' p hp
    simp only [Function.update_apply]
    split
    · exact hnil p hp
    · exact hlocals d' p hp
  · exact hglobals
  · intro d' p
    simp only [Function.update_apply]
    split
    · exact hnodup p
    · exact hdistinct d' p

omit [DecidableEq V] [Inhabited V] in
/-- What is set for a document that is not there is not used. -/
theorem Inv.update_none (h : w.Inv) {locals : ℕ → List (ConfigValue V)}
    (hd : w.configs.instances d = none) (hnil : ∀ p, w.configs.vars.length ≤ p → locals p = [])
    (hnodup : ∀ p, ((locals p ++ w.globals p).map ConfigValue.rank).Nodup) :
    Inv { w with locals := Function.update w.locals d locals } := by
  obtain ⟨hglobal, hinstance, hgbest, hbest, hlocals, hglobals, hdistinct⟩ := h
  refine ⟨hglobal, hinstance, hgbest, fun d' values hvalues p pspec v hvar hv => ?_, fun d' p hp => ?_,
    hglobals, fun d' p => ?_⟩ <;> simp only [Function.update_apply] <;> split
  · next heq => simp [heq, hd] at hvalues
  · exact hbest d' values hvalues p pspec v hvar hv
  · exact hnil p hp
  · exact hlocals d' p hp
  · exact hnodup p
  · exact hdistinct d' p

omit [Inhabited V] in
/-- A document gets the settings of one more source. -/
theorem Inv.setLocals (h : w.Inv) (d : ℕ) (source : MooEditConfigSource) (settings : List (ℕ × V))
    (hlt : ∀ s ∈ settings, s.1 < w.configs.vars.length)
    (hnodup : (settings.map (·.1)).Nodup) (hfresh : ∀ s ∈ settings, w.Fresh source d s.1)
    {c : EditConfigs V} (hnone : w.configs.instances d = none → c = w.configs)
    (hsome : ∀ values, w.configs.instances d = some values →
      let new := (EditConfigs.setValist source settings values).1
      c = { w.configs with instances := Function.update w.configs.instances d (some new) }) :
    Inv { w with
      configs := c
      locals := Function.update w.locals d (record (w.locals d) source settings) } := by
  have hcases : ∀ p, record (w.locals d) source settings p = w.locals d p ∧
        p ∉ settings.map (·.1) ∨
      ∃ value, (p, value) ∈ settings ∧
        record (w.locals d) source settings p = w.locals d p ++ [⟨value, source⟩] := fun p => by
    by_cases hp : p ∈ settings.map (·.1)
    · obtain ⟨⟨_, value⟩, hmem, rfl⟩ := List.mem_map.1 hp
      exact .inr ⟨value, hmem, record_of_mem hnodup hmem⟩
    · exact .inl ⟨record_of_notMem hp, hp⟩
  have hnil : ∀ p, w.configs.vars.length ≤ p → record (w.locals d) source settings p = [] := by
    intro p hp
    rcases hcases p with ⟨heq, -⟩ | ⟨value, hmem, -⟩
    · rw [heq, h.locals_nil d p hp]
    · exact absurd (hlt _ hmem) (by simpa using hp)
  have hdistinct : ∀ p, ((record (w.locals d) source settings p ++ w.globals p).map
      ConfigValue.rank).Nodup := by
    intro p
    rcases hcases p with ⟨heq, -⟩ | ⟨value, hmem, heq⟩
    · exact heq ▸ h.distinct d p
    · rw [heq]
      exact nodup_add perm_locals (h.distinct d p) (hfresh _ hmem)
  cases hd : w.configs.instances d with
  | none =>
    rw [hnone hd]
    exact h.update_none hd hnil hdistinct
  | some values =>
    rw [hsome values hd]
    obtain ⟨hlen, -, hget⟩ := @EditConfigs.setValist_spec V values source _ settings hnodup
    refine h.update hd hlen (fun p pspec old v hvar hold hv hbest => ?_) hnil hdistinct
    obtain ⟨v', hv', honce⟩ := hget p old hold
    obtain rfl : v' = v := by simpa [hv'] using hv
    rcases hcases p with ⟨heq, hnot⟩ | ⟨value, hmem, heq⟩
    · rw [heq, (honce.other hnot).1]
      exact hbest
    · rw [heq, honce.picked value hmem]
      exact hbest.pick (fun y => perm_locals.mem_iff.trans List.mem_cons) (rank_le_default _)

theorem Inv.set (h : w.Inv) {pairs : List (List Char × V)} (he : w.Distinct (.set d source pairs)) :
    (w.step (.set d source pairs)).Inv := by
  obtain ⟨hnodup, hfresh⟩ := he
  refine h.setLocals d source _ (fun s => lt_of_mem_collect) hnodup hfresh (fun hd => ?_) fun values hd => ?_ <;>
    simp [EditConfigs.set, hd]

omit [DecidableEq V] [Inhabited V] in
theorem lt_of_parsed {c : EditConfigs V} {name text : List Char} {prop : ℕ}
    (h : c.parsed name text = some (prop, value)) : prop < c.vars.length := by
  obtain ⟨p, hp, hrest⟩ := Option.bind_eq_some_iff.1 h
  obtain ⟨pspec, hpspec, hmap⟩ := Option.bind_eq_some_iff.1 hrest
  obtain ⟨_, _, heq⟩ := Option.map_eq_some_iff.1 hmap
  cases heq
  exact findIdx?_lt hp

theorem Inv.parseOne (h : w.Inv) {name text : List Char}
    (he : w.Distinct (.parseOne d name text source)) :
    (w.step (.parseOne d name text source)).Inv := by
  cases hparsed : w.configs.parsed name text with
  | none =>
    have hnext := h.setLocals d source [] (by simp) (by simp) (by simp) (fun _ => rfl)
      (fun values hd => by simp [EditConfigs.setValist, ← hd])
    have hparse : w.configs.parseOne d name text source = w.configs := by
      unfold EditConfigs.parseOne
      grind
    simpa [step, hparsed, hparse] using hnext
  | some setting =>
    obtain ⟨prop, value⟩ := setting
    have hfresh : w.Fresh source d prop := he (prop, value) hparsed
    have hnext := h.setLocals d source [(prop, value)] (c := w.configs.parseOne d name text source) (by simpa using lt_of_parsed hparsed) (by simp)
      (by simpa using hfresh) (fun hd => by simp [EditConfigs.parseOne, hd]) (fun values hd => by
        simp [EditConfigs.parseOne, EditConfigs.setValist, hd, hparsed])
    simpa [step, hparsed] using hnext

theorem Inv.setGlobal (h : w.Inv) {pairs : List (List Char × V)}
    (he : w.Distinct (.setGlobal source pairs)) : (w.step (.setGlobal source pairs)).Inv := by
  obtain ⟨hnodup, hfresh⟩ := he
  obtain ⟨hglobal, hinstance, hgbest, hbest, hlocals, hglobals, hdistinct⟩ := h
  simp only [step, EditConfigs.setGlobal, EditConfigs.foldl_globalChanged]
  set settings := w.configs.collect pairs with hsettings
  obtain ⟨hlen, hqueue, hget⟩ :=
    @EditConfigs.setValist_spec V w.configs.global source _ settings hnodup
  set r := EditConfigs.setValist source settings w.configs.global
  have hcases : ∀ p, record w.globals source settings p = w.globals p ∧ p ∉ settings.map (·.1) ∨
      ∃ value, (p, value) ∈ settings ∧
        record w.globals source settings p = w.globals p ++ [⟨value, source⟩] := fun p => by
    by_cases hp : p ∈ settings.map (·.1)
    · obtain ⟨⟨_, value⟩, hmem, rfl⟩ := List.mem_map.1 hp
      exact .inr ⟨value, hmem, record_of_mem hnodup hmem⟩
    · exact .inl ⟨record_of_notMem hp, hp⟩
  have hfold : ∀ values : List (ConfigValue V), values.length = w.configs.vars.length →
      values.length = r.1.length := fun values hvalues => by rw [hvalues, hlen, hglobal]
  constructor
  · exact hlen.trans hglobal
  · intro d values hvalues
    obtain ⟨old, hold, rfl⟩ := Option.map_eq_some_iff.1 hvalues
    have hfolded := EditConfigs.getElem?_foldl_updatePropFromGlobal hqueue
      (hfold old (hinstance d old hold))
    exact hfolded.1.trans (hlen.trans hglobal)
  · intro p pspec g hvar hg
    have hp : p < w.configs.global.length := hlen ▸ (List.getElem?_eq_some_iff.1 hg).1
    have hold := List.getElem?_eq_getElem hp
    obtain ⟨g', hg', honce⟩ := hget p _ hold
    obtain rfl : g' = g := by simpa [hg'] using hg
    have hgbest := hgbest p pspec _ hvar hold
    rcases hcases p with ⟨heq, hnot⟩ | ⟨value, hmem, heq⟩
    · simpa only [heq, (honce.other hnot).1] using hgbest
    · simp only [heq, honce.picked value hmem]
      exact hgbest.pick (fun y => (List.perm_append_singleton _ _).mem_iff.trans List.mem_cons)
        (rank_le_default _)
  · intro d values hvalues p pspec v hvar hv
    obtain ⟨old, hold, rfl⟩ := Option.map_eq_some_iff.1 hvalues
    have hp : p < w.configs.vars.length := (List.getElem?_eq_some_iff.1 hvar).1
    have hg := List.getElem?_eq_getElem (hglobal.symm ▸ hp)
    obtain ⟨v₀, hold'⟩ : ∃ v₀, old[p]? = some v₀ :=
      ⟨_, List.getElem?_eq_getElem ((hinstance d old hold).symm ▸ hp)⟩
    obtain ⟨g, hg', honce⟩ := hget p _ hg
    have hfolded := EditConfigs.getElem?_foldl_updatePropFromGlobal hqueue
      (hfold old (hinstance d old hold))
    rw [hfolded.2 p g _ hg' hold'] at hv
    have hbest := hbest d old hold p pspec _ hvar hold'
    rcases hcases p with ⟨heq, hnot⟩ | ⟨value, hmem, heq⟩
    · obtain rfl : v₀ = v := by simpa [(honce.other hnot).2] using hv
      simpa only [heq] using hbest
    · simp only [heq]
      have hl : ∀ y, y ∈ w.locals d p ++ (w.globals p ++ [⟨value, source⟩]) ↔
          y = ⟨value, source⟩ ∨ y ∈ w.locals d p ++ w.globals p :=
        fun y => perm_globals.mem_iff.trans List.mem_cons
      by_cases hnotified : p ∈ r.2
      · obtain rfl := honce.noticed hnotified value hmem
        obtain rfl : pick ConfigValue.rank ⟨value, source⟩ v₀ = v := by
          simpa [hnotified] using hv
        exact hbest.pick hl (rank_le_default _)
      · obtain rfl : v₀ = v := by simpa [hnotified] using hv
        exact hbest.keep_second (hgbest p pspec _ hvar hg) hl rank_le_default
          ((honce.picked value hmem).symm.trans (honce.unnoticed hnotified))
  · exact hlocals
  · intro p hp
    rcases hcases p with ⟨heq, -⟩ | ⟨value, hmem, -⟩
    · simpa only [heq] using hglobals p hp
    · exact absurd (lt_of_mem_collect hmem) (by simpa using hp)
  · intro d p
    rcases hcases p with ⟨heq, -⟩ | ⟨value, hmem, heq⟩
    · simpa only [heq] using hdistinct d p
    · simp only [heq]
      exact nodup_add perm_globals (hdistinct d p) (hfresh _ hmem d)

theorem Inv.unsetBySource (h : w.Inv) : (w.step (.unsetBySource d source)).Inv := by
  have hnodup : ∀ p, (((w.locals d p).filter (·.source.rank < source.rank) ++ w.globals p).map
      ConfigValue.rank).Nodup := fun p =>
    (h.distinct d p).sublist ((List.filter_sublist.append (List.Sublist.refl _)).map _)
  have hnil : ∀ p, w.configs.vars.length ≤ p →
      (w.locals d p).filter (·.source.rank < source.rank) = [] := fun p hp => by
    simp [h.locals_nil d p hp]
  cases hd : w.configs.instances d with
  | none => simpa only [step, EditConfigs.unsetBySource, hd] using h.update_none hd hnil hnodup
  | some values =>
    obtain ⟨hlen, hget⟩ := @EditConfigs.getElem?_foldl_unsetValue V w.configs values source _
      h.length_global (h.length_instance d values hd)
    have hnext := h.update hd (hlen.trans (h.length_instance d values hd).symm)
      (fun p pspec old v hvar hold hv hbest => ?_) hnil hnodup
    · simpa only [step, EditConfigs.unsetBySource, hd] using hnext
    · have hp : p < w.configs.global.length := h.length_global ▸ (List.getElem?_eq_some_iff.1 hvar).1
      have hg := List.getElem?_eq_getElem hp
      rw [hget p _ old hg hold] at hv
      have hgbest := h.global_best p pspec _ hvar hg
      split at hv
      · next hlt =>
        obtain rfl : old = v := by simpa using hv
        refine hbest.withdraw (by grind) (by grind)
      · next hle =>
        obtain rfl : w.configs.global[p] = v := by simpa using hv
        have hgone : (w.locals d p).filter (·.source.rank < source.rank) = [] := by
          rw [List.filter_eq_nil_iff]
          intro e he
          have hrank : old.rank ≤ e.rank := hbest.le (List.mem_append_left _ he)
          simp only [ConfigValue.rank] at hrank
          simp only [decide_eq_true_eq]
          omega
        simpa [hgone] using hgbest

theorem Inv.step (h : w.Inv) {e : ConfigEvent V} (he : w.Distinct e) : (w.step e).Inv := by
  cases e with
  | installSetting pspec => exact h.installSetting pspec
  | installAlias name other => exact h.installAlias name other
  | new d => exact h.new d
  | finalize d => exact h.finalize d
  | set d source pairs => exact h.set he
  | parseOne d name value source => exact h.parseOne he
  | setGlobal source pairs => exact h.setGlobal he
  | unsetBySource d source => exact h.unsetBySource

theorem inv_of_reachable (h : Machine.Reachable step Distinct init w) : w.Inv :=
  h.invariant .init fun _ _ he hinv => hinv.step he

/-! ## Main results -/

/-- When no source sets a setting twice, a document has of every setting the value of the best source,
among what is set for it and globally, and the default when nothing is. The order does not matter: two
runs that have set the same have the same values. What is unset goes back to the global value: no
value stays that a source that is not better than the given one has set for the document. -/
theorem best_source_wins (h : Machine.Reachable step Distinct init w) :
    (∀ d values, w.configs.instances d = some values →
      values.length = w.configs.vars.length ∧ ∀ p pspec v, w.configs.vars[p]? = some pspec →
        values[p]? = some v → Best pspec (w.locals d p ++ w.globals p) v) ∧
    (∀ w' : ConfigWorld V, Machine.Reachable step Distinct init w' →
      ∀ d values d' values', w.configs.instances d = some values →
        w'.configs.instances d' = some values' → ∀ p pspec p' pspec', w.configs.vars[p]? = some pspec →
          w'.configs.vars[p']? = some pspec' → pspec.valueDefault = pspec'.valueDefault →
            (∀ e, e ∈ w.locals d p ++ w.globals p ↔ e ∈ w'.locals d' p' ++ w'.globals p') →
              values[p]? = values'[p']?) ∧
    (∀ d source values, (w.step (.unsetBySource d source)).configs.instances d = some values →
      ∀ p v, values[p]? = some v →
        (v.source.rank < source.rank ∨ w.configs.global[p]? = some v) ∧
        ((∀ e ∈ w.locals d p, source.rank ≤ e.source.rank) → w.configs.global[p]? = some v)) := by
  have hinv := inv_of_reachable h
  refine ⟨fun d values hvalues => ⟨hinv.length_instance d values hvalues, fun p pspec v hvar hv =>
    hinv.instance_best d values hvalues p pspec v hvar hv⟩, ?_, ?_⟩
  · intro w' h' d values d' values' hvalues hvalues' p pspec p' pspec' hvar hvar' hdefault hentries
    have hinv' := inv_of_reachable h'
    have hp : p < values.length := by
      rw [hinv.length_instance d values hvalues]
      exact (List.getElem?_eq_some_iff.1 hvar).1
    have hp' : p' < values'.length := by
      rw [hinv'.length_instance d' values' hvalues']
      exact (List.getElem?_eq_some_iff.1 hvar').1
    have hget := List.getElem?_eq_getElem hp
    have hget' := List.getElem?_eq_getElem hp'
    have hbest := hinv.instance_best d values hvalues p pspec _ hvar hget
    have hbest' := hinv'.instance_best d' values' hvalues' p' pspec' _ hvar' hget'
    have hsame : Best pspec (w.locals d p ++ w.globals p) values'[p'] := by
      have hcongr := hbest'.congr hentries
      rwa [← hdefault] at hcongr
    rw [hget, hget', hbest.unique hsame (hinv.distinct d p)]
  · intro d source values hvalues p v hv
    cases hd : w.configs.instances d with
    | none => simp [ConfigWorld.step, EditConfigs.unsetBySource, hd] at hvalues
    | some old =>
      have hlen := hinv.length_instance d old hd
      obtain ⟨hlen', hget⟩ := @EditConfigs.getElem?_foldl_unsetValue V w.configs old source _
        hinv.length_global hlen
      obtain rfl : _ = values := by
        simpa [ConfigWorld.step, EditConfigs.unsetBySource, hd] using hvalues
      have hp : p < w.configs.vars.length := hlen' ▸ (List.getElem?_eq_some_iff.1 hv).1
      have hvar := List.getElem?_eq_getElem hp
      have hg := List.getElem?_eq_getElem (hinv.length_global.symm ▸ hp)
      have hold := List.getElem?_eq_getElem (hlen.symm ▸ hp)
      rw [hget p _ _ hg hold] at hv
      refine ⟨?_, fun hworse => ?_⟩
      · grind
      · split at hv
        · next hlt =>
          -- the value is not one of the document, so it is the best global one
          have hbest := hinv.instance_best d old hd p _ _ hvar hold
          have hnot : old[p] ∉ w.locals d p := fun hmem => absurd (hworse _ hmem) (by omega)
          have hglobal : Best w.configs.vars[p] (w.globals p) old[p] :=
            hbest.withdraw (fun y hy => List.mem_append_right _ hy)
              fun hmem => (List.mem_append.1 hmem).resolve_left hnot
          have hnodup : ((w.globals p).map ConfigValue.rank).Nodup :=
            (hinv.distinct d p).sublist ((List.sublist_append_right _ _).map _)
          rw [hg, (hinv.global_best p _ _ hvar hg).unique hglobal hnodup, hv]
        · rw [hg, hv]

/-- The setting of the witness. -/
def tabWidth : ConfigSpec ℕ := ⟨['t'], by decide, 8, fun s => s.head?.map fun c => c.toNat - 48⟩

/-- A document with a mode line for the tab width, which is set globally for names of files. When
the mode line is gone, the document has the global tab width. -/
theorem best_source_wins_tab_width :
    let w := [.installSetting tabWidth, .setGlobal .filename [(['t'], 4)], .new 0,
      .parseOne 0 ['t'] ['2'] .file].foldl step (init : ConfigWorld ℕ)
    w.configs.instances 0 = some [⟨2, .file⟩] ∧
      Best tabWidth [⟨2, .file⟩, ⟨4, .filename⟩] ⟨2, .file⟩ ∧
      (w.step (.unsetBySource 0 .file)).configs.instances 0 = some [⟨4, .filename⟩] ∧
      w.configs.global[0]? = some ⟨4, .filename⟩ := by
  intro w
  have hinstall : Machine.Reachable step Distinct init
      ((init : ConfigWorld ℕ).step (.installSetting tabWidth)) := .step .start trivial
  have hset := hinstall.step (e := ConfigEvent.setGlobal .filename [(['t'], 4)])
    ⟨by decide, fun s hs d e he => by
      have he : e ∈ ([] : List (ConfigValue ℕ)) := he
      simp at he⟩
  have hnew := hset.step (e := ConfigEvent.new 0) trivial
  have hparse := hnew.step (e := ConfigEvent.parseOne 0 ['t'] ['2'] .file) fun s hs e he => by
    obtain rfl : (0, 2) = s := Option.some.inj hs
    obtain rfl : e = ⟨4, .filename⟩ := List.mem_singleton.1 he
    simp
  obtain ⟨hbest, -, hunset⟩ := best_source_wins hparse
  refine ⟨by decide, (hbest 0 [⟨2, .file⟩] (by decide)).2 0 tabWidth _ rfl rfl, by decide, ?_⟩
  exact ((hunset 0 .file [⟨4, .filename⟩] (by decide) 0 _ rfl).1).resolve_left (by decide)

end ConfigWorld

end Medit
