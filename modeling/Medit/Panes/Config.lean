import Mathlib.Algebra.Group.Nat.Defs
import Mathlib.Algebra.GroupWithZero.Nat
import Mathlib.Algebra.Ring.Int.Defs
import Medit.Library.CString

/-!
# The configuration of a big paned

The strings of `moobigpaned.cpp` that keep the sides, the order and the parameters of panes.

## Main definitions

* `Config` — `MooBigPanedConfig`, with the entries of its hash table.
* `Config.serialize`, `Config.parse` — `config_serialize` and `config_parse`.

## Main results

* `Config.parse_serialize` — a valid configuration is read as it was written, in whatever order the
  hash table gives its entries.
-/

namespace Medit.Panes

open CString

abbrev Id := List UInt8

/-- `MooPanePosition` -/
inductive Position
  | left
  | right
  | top
  | bottom
deriving DecidableEq

/-- `MooPaneParams` -/
structure PaneParams where
  x : ℤ
  y : ℤ
  width : ℤ
  height : ℤ
  detached : Bool
  maximized : Bool
  keepOnTop : Bool
deriving DecidableEq

/-- `moo_pane_params_new` without a position -/
def PaneParams.new : PaneParams := ⟨0, 0, -1, -1, false, false, false⟩

/-- `MooPanedConfig` -/
structure PanedConfig where
  order : List Id
  size : ℤ
  sticky : ℤ
  active : Option Id
deriving DecidableEq

/-- `MooBigPanedConfig` -/
structure Config where
  paned : Position → PanedConfig
  panes : List (Id × PaneParams)

/-- `config_new` -/
def Config.new : Config := ⟨fun _ => ⟨[], -1, -1, none⟩, []⟩

/-- `g_hash_table_insert` -/
def insertParams (panes : List (Id × PaneParams)) (id : Id) (params : PaneParams) :
    List (Id × PaneParams) :=
  panes.filter (·.1 ≠ id) ++ [(id, params)]

/-! ## Writing -/

def comma : UInt8 := 44
def semicolon : UInt8 := 59
def colon : UInt8 := 58

/-- `CONFIG_STRING_MAGIC` -/
def magic : List UInt8 := ascii "mbpconfig-1.0 ".toList

/-- `paned_config_serialize` -/
def PanedConfig.serialize (config : PanedConfig) : List UInt8 :=
  signed config.size ++ comma :: signed config.sticky ++ comma :: config.active.getD [] ++
    config.order.flatMap (comma :: ·)

def boolText (b : Bool) : List UInt8 := if b then [49] else [48]

/-- `pane_config_serialize` -/
def PaneParams.serialize (id : Id) (params : PaneParams) : List UInt8 :=
  semicolon :: id ++ colon :: signed params.x ++ comma :: signed params.y ++
    comma :: signed params.width ++ comma :: signed params.height ++
    comma :: boolText params.detached ++ comma :: boolText params.maximized ++
    comma :: boolText params.keepOnTop

/-- `config_serialize`, which goes through the entries of the hash table in the order given. -/
def Config.serialize (config : Config) (entries : List (Id × PaneParams)) : List UInt8 :=
  magic ++ (config.paned .left).serialize ++ semicolon :: (config.paned .right).serialize ++
    semicolon :: (config.paned .top).serialize ++ semicolon :: (config.paned .bottom).serialize ++
    entries.flatMap fun e => e.2.serialize e.1

/-! ## Reading -/

/-- `parse_int` -/
def parseInt (s : List UInt8) : Option ℤ :=
  match strtol s with
  | some (value, []) => if -2 ^ 31 ≤ value ∧ value < 2 ^ 31 then some value else none
  | _ => none

/-- `parse_bool` -/
def parseBool : List UInt8 → Option Bool
  | [48] => some false
  | [49] => some true
  | _ => none

/-- `parse_paned_config` -/
def parsePaned (s : List UInt8) : Option PanedConfig :=
  match split comma s with
  | size :: sticky :: active :: order => do
    let size ← parseInt size
    if size < -1 ∨ 100000 < size then none
    let sticky ← parseInt sticky
    if sticky < -1 ∨ 1 < sticky then none
    some ⟨order, size, sticky, if active = [] then none else some active⟩
  | _ => none

/-- `parse_pane_config` -/
def parsePane (s : List UInt8) : Option (Id × PaneParams) :=
  let id := s.takeWhile (· ≠ colon)
  if id = s ∨ id = [] then none
  else
    match split comma (s.drop (id.length + 1)) with
    | [x, y, width, height, detached, maximized, keepOnTop] => do
      let x ← parseInt x
      let y ← parseInt y
      let width ← parseInt width
      let height ← parseInt height
      if width < -1 ∨ 100000 < width ∨ height < -1 ∨ 100000 < height then none
      let detached ← parseBool detached
      let maximized ← parseBool maximized
      let keepOnTop ← parseBool keepOnTop
      some (id, ⟨x, y, width, height, detached, maximized, keepOnTop⟩)
    | _ => none

/-- The loop of `config_parse` over the panes -/
def parsePanes : List (List UInt8) → List (Id × PaneParams) → Option (List (Id × PaneParams))
  | [], panes => some panes
  | s :: rest, panes => do
    let (id, params) ← parsePane s
    parsePanes rest (insertParams panes id params)

/-- `config_parse` -/
def Config.parse (s : List UInt8) : Option Config :=
  if magic <+: s then
    match split semicolon (s.drop magic.length) with
    | left :: right :: top :: bottom :: rest => do
      let left ← parsePaned left
      let right ← parsePaned right
      let top ← parsePaned top
      let bottom ← parsePaned bottom
      let panes ← parsePanes rest []
      some ⟨fun | .left => left | .right => right | .top => top | .bottom => bottom, panes⟩
    | _ => none
  else none

/-! ## Valid configurations -/

/-- An id that does not break the strings. -/
structure ValidId (id : Id) : Prop where
  ne_nil : id ≠ []
  comma : comma ∉ id
  semicolon : semicolon ∉ id
  colon : colon ∉ id

structure PanedConfig.Valid (config : PanedConfig) : Prop where
  order : ∀ id ∈ config.order, ValidId id
  size : -1 ≤ config.size ∧ config.size ≤ 100000
  sticky : -1 ≤ config.sticky ∧ config.sticky ≤ 1
  active : ∀ id ∈ config.active, ValidId id

structure PaneParams.Valid (params : PaneParams) : Prop where
  x : -2 ^ 31 ≤ params.x ∧ params.x < 2 ^ 31
  y : -2 ^ 31 ≤ params.y ∧ params.y < 2 ^ 31
  width : -1 ≤ params.width ∧ params.width ≤ 100000
  height : -1 ≤ params.height ∧ params.height ≤ 100000

structure Config.Valid (config : Config) : Prop where
  paned : ∀ pos, (config.paned pos).Valid
  panes : ∀ e ∈ config.panes, ValidId e.1 ∧ e.2.Valid
  nodup : (config.panes.map Prod.fst).Nodup

/-! ## Round trips -/

theorem parseInt_signed {n : ℤ} (h : -2 ^ 31 ≤ n ∧ n < 2 ^ 31) : parseInt (signed n) = some n := by
  rw [parseInt, strtol_signed]
  simp only [h, and_self, if_true]

theorem parseBool_boolText (b : Bool) : parseBool (boolText b) = some b := by
  cases b <;> rfl

theorem notMem_signed {n : ℤ} {c : UInt8} (hminus : c ≠ 45) (hdigit : isDigit c = false) :
    c ∉ signed n := by
  intro h
  rcases mem_signed h with rfl | h
  · exact hminus rfl
  · simp [hdigit] at h

theorem notMem_boolText {b : Bool} {c : UInt8} (h : isDigit c = false) : c ∉ boolText b := by
  cases b <;> rintro hmem <;> obtain rfl := List.mem_singleton.1 hmem <;> simp [isDigit] at h

/-- Joined texts, of which each but the first one is behind a separator. -/
theorem intercalate_cons_flatMap {α : Type*} (sep : UInt8) (f : α → List UInt8) (s : List UInt8)
    (l : List α) : [sep].intercalate (s :: l.map f) = s ++ l.flatMap fun a => sep :: f a := by
  induction l generalizing s with
  | nil => simp
  | cons a l ih =>
    have hcons : [sep].intercalate (s :: f a :: l.map f) =
        s ++ sep :: [sep].intercalate (f a :: l.map f) := by simp
    rw [List.map_cons, hcons, ih]
    simp

theorem PanedConfig.serialize_eq (config : PanedConfig) :
    config.serialize =
      [comma].intercalate
        (signed config.size :: signed config.sticky :: config.active.getD [] :: config.order) := by
  have hcons : ∀ s t : Id, ∀ ids : List Id, [comma].intercalate (s :: t :: ids) =
      s ++ comma :: [comma].intercalate (t :: ids) := by simp
  have hjoin := intercalate_cons_flatMap comma id (config.active.getD []) config.order
  rw [List.map_id] at hjoin
  rw [hcons, hcons, hjoin, serialize]
  simp

theorem parsePaned_serialize {config : PanedConfig} (h : config.Valid) :
    parsePaned config.serialize = some config := by
  have hcomma : comma ≠ 45 ∧ isDigit comma = false := by decide
  have hactive : comma ∉ config.active.getD [] := by
    cases hactive : config.active with
    | none => simp
    | some id => exact (h.active id (by simp [hactive])).comma
  have hsplit : split comma config.serialize =
      signed config.size :: signed config.sticky :: config.active.getD [] :: config.order := by
    rw [config.serialize_eq]
    refine split_intercalate ?_ ?_
    · intro l hl
      simp only [List.mem_cons] at hl
      rcases hl with rfl | rfl | rfl | hl
      · exact notMem_signed hcomma.1 hcomma.2
      · exact notMem_signed hcomma.1 hcomma.2
      · exact hactive
      · exact (h.order l hl).comma
    · simp [signed_ne_nil]
  obtain ⟨hlow, hhigh⟩ := h.size
  obtain ⟨hlow', hhigh'⟩ := h.sticky
  have hsize := parseInt_signed (n := config.size) (by omega)
  have hsticky := parseInt_signed (n := config.sticky) (by omega)
  have hid : (if config.active.getD [] = [] then none else some (config.active.getD [])) =
      config.active := by
    cases hactive : config.active with
    | none => simp
    | some id => simp [(h.active id (by simp [hactive])).ne_nil]
  simp only [parsePaned, hsplit, hsize, hsticky, hid]
  simp [h.size, h.sticky]

/-- What stands for a pane behind the semicolon. -/
def PaneParams.text (id : Id) (params : PaneParams) : List UInt8 :=
  id ++ colon :: [comma].intercalate [signed params.x, signed params.y, signed params.width,
    signed params.height, boolText params.detached, boolText params.maximized,
    boolText params.keepOnTop]

theorem PaneParams.serialize_eq (id : Id) (params : PaneParams) :
    params.serialize id = semicolon :: params.text id := by
  simp [serialize, text]

theorem parsePane_text {id : Id} {params : PaneParams} (hid : ValidId id) (h : params.Valid) :
    parsePane (params.text id) = some (id, params) := by
  have hcomma : comma ≠ 45 ∧ isDigit comma = false := by decide
  have htake : (params.text id).takeWhile (· ≠ colon) = id := by
    rw [PaneParams.text, List.takeWhile_append_of_pos]
    · simp
    · intro c hc
      have hne : c ≠ colon := fun h => hid.colon (h ▸ hc)
      simpa using hne
  have hdrop : (params.text id).drop (id.length + 1) = [comma].intercalate [signed params.x,
      signed params.y, signed params.width, signed params.height, boolText params.detached,
      boolText params.maximized, boolText params.keepOnTop] := by
    rw [PaneParams.text, ← List.drop_drop, List.drop_left]
    rfl
  have hsplit : split comma ((params.text id).drop (id.length + 1)) = [signed params.x,
      signed params.y, signed params.width, signed params.height, boolText params.detached,
      boolText params.maximized, boolText params.keepOnTop] := by
    rw [hdrop]
    refine split_intercalate ?_ ?_
    · have hint : ∀ n, comma ∉ signed n := fun n => notMem_signed hcomma.1 hcomma.2
      have hbool : ∀ b, comma ∉ boolText b := fun b => notMem_boolText hcomma.2
      simp [hint, hbool]
    · simp [signed_ne_nil]
  have hne : id ≠ params.text id := by
    intro h
    have := congrArg List.length h
    simp [PaneParams.text] at this
  have hx := parseInt_signed h.x
  have hy := parseInt_signed h.y
  obtain ⟨hlow, hhigh⟩ := h.width
  obtain ⟨hlow', hhigh'⟩ := h.height
  have hwidth := parseInt_signed (n := params.width) (by omega)
  have hheight := parseInt_signed (n := params.height) (by omega)
  simp only [parsePane, htake, hsplit, hne, hid.ne_nil, or_self, if_false, hx, hy, hwidth, hheight,
    parseBool_boolText]
  simp [h.width, h.height]

theorem insertParams_of_notMem {panes : List (Id × PaneParams)} {id : Id} {params : PaneParams}
    (h : id ∉ panes.map Prod.fst) : insertParams panes id params = panes ++ [(id, params)] := by
  rw [insertParams, List.filter_eq_self.2]
  intro e he
  have hne : e.1 ≠ id := fun heq => h (heq ▸ List.mem_map_of_mem he)
  simpa using hne

theorem parsePanes_text {entries panes : List (Id × PaneParams)}
    (h : ∀ e ∈ entries, ValidId e.1 ∧ e.2.Valid)
    (hnodup : ((panes ++ entries).map Prod.fst).Nodup) :
    parsePanes (entries.map fun e => e.2.text e.1) panes = some (panes ++ entries) := by
  induction entries generalizing panes with
  | nil => simp [parsePanes]
  | cons e entries ih =>
    obtain ⟨hid, hparams⟩ := h e (by simp)
    have hnew : e.1 ∉ panes.map Prod.fst := by
      rw [List.map_append, List.map_cons] at hnodup
      exact fun hmem => (List.nodup_append.1 hnodup).2.2 _ hmem _ (by simp) rfl
    have ih := ih (fun e he => h e (by simp [he]))
      (show ((panes ++ [e] ++ entries).map Prod.fst).Nodup by simpa using hnodup)
    rw [List.map_cons, parsePanes, parsePane_text hid hparams]
    simp only [Option.bind_eq_bind, Option.bind_some, insertParams_of_notMem hnew, ih]
    simp

theorem Config.serialize_eq (config : Config) (entries : List (Id × PaneParams)) :
    config.serialize entries = magic ++ [semicolon].intercalate
      ((config.paned .left).serialize :: (config.paned .right).serialize ::
        (config.paned .top).serialize :: (config.paned .bottom).serialize ::
          entries.map fun e => e.2.text e.1) := by
  have hcons : ∀ s t : Id, ∀ ids : List Id, [semicolon].intercalate (s :: t :: ids) =
      s ++ semicolon :: [semicolon].intercalate (t :: ids) := by simp
  rw [hcons, hcons, hcons, intercalate_cons_flatMap]
  simp [serialize, PaneParams.serialize_eq]

theorem PanedConfig.Valid.semicolon_notMem {config : PanedConfig} (h : config.Valid) :
    semicolon ∉ config.serialize := by
  have hint : ∀ n, semicolon ∉ signed n := fun n => notMem_signed (by decide) (by decide)
  have hcomma : semicolon ≠ comma := by decide
  have hactive : semicolon ∉ config.active.getD [] := by
    cases hactive : config.active with
    | none => simp
    | some id => exact (h.active id (by simp [hactive])).semicolon
  have horder : ∀ id ∈ config.order, semicolon ∉ id := fun id hid => (h.order id hid).semicolon
  simpa [serialize, hint, hcomma, hactive] using horder

theorem PaneParams.semicolon_notMem {id : Id} {params : PaneParams} (h : ValidId id) :
    semicolon ∉ params.text id := by
  have hint : ∀ n, semicolon ∉ signed n := fun n => notMem_signed (by decide) (by decide)
  have hbool : ∀ b, semicolon ∉ boolText b := fun b => notMem_boolText (by decide)
  have hcomma : semicolon ≠ comma ∧ semicolon ≠ colon := by decide
  simp [text, hint, hbool, hcomma, h.semicolon]

/-- A valid configuration is read as it was written. -/
theorem Config.parse_serialize {config : Config} (h : config.Valid)
    {entries : List (Id × PaneParams)} (hentries : entries.Perm config.panes) :
    ∃ panes, Config.parse (config.serialize entries) = some ⟨config.paned, panes⟩ ∧
      panes.Perm config.panes := by
  refine ⟨entries, ?_, hentries⟩
  have hmem : ∀ e ∈ entries, ValidId e.1 ∧ e.2.Valid := fun e he =>
    h.panes e (hentries.mem_iff.1 he)
  have hnodup : (([] ++ entries).map Prod.fst).Nodup := (hentries.map Prod.fst).nodup_iff.2 h.nodup
  have hprefix : magic <+: config.serialize entries := by
    simp only [serialize, List.append_assoc]
    exact List.prefix_append _ _
  have hsplit : split semicolon ((config.serialize entries).drop magic.length) =
      (config.paned .left).serialize :: (config.paned .right).serialize ::
        (config.paned .top).serialize :: (config.paned .bottom).serialize ::
          entries.map fun e => e.2.text e.1 := by
    rw [serialize_eq, List.drop_left]
    refine split_intercalate ?_ ?_
    · intro l hl
      simp only [List.mem_cons, List.mem_map] at hl
      rcases hl with rfl | rfl | rfl | rfl | ⟨e, he, rfl⟩
      · exact (h.paned _).semicolon_notMem
      · exact (h.paned _).semicolon_notMem
      · exact (h.paned _).semicolon_notMem
      · exact (h.paned _).semicolon_notMem
      · exact PaneParams.semicolon_notMem (hmem e he).1
    · simp
  have hpanes := parsePanes_text hmem hnodup
  rw [List.nil_append] at hpanes
  simp only [parse, hprefix, if_true, hsplit, parsePaned_serialize (h.paned _), hpanes,
    Option.bind_eq_bind, Option.bind_some, Option.some.injEq, Config.mk.injEq, and_true]
  funext pos
  cases pos <;> rfl

end Medit.Panes
