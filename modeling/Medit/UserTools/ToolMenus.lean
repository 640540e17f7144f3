import Medit.Library.ForestPlaces
import Medit.Ui.Paths
import Medit.UserTools.ToolList
import Medit.Library.StringEq

/-!
# Menus of user tools

Translation of `load_tool`, `parse_name` and `unload_user_tools` of
`plugins/usertools/moousertools.cpp`: a tool gets an item in a description of menus and an action.
The name of a tool of the menu may be a path of submenus with the label behind it.

## Main definitions

* `parseName` — the label of a tool and the place of its item; a path that is missing is made.
* `loadTool`, `unloadUserTools` — a tool is put into the description, and all are taken out.
* `Fits` — the path of a tool is there, or nothing of it is.

## Main results

* `placed_iff_fits` — when an item comes to its place.
* `loadTools_right` — the same for any list of tools, and what is left when they are unloaded.
-/

namespace Medit

open CString LinkedForest Function MooUiXml

namespace UserTools

/-- `MooUserToolType` -/
inductive MooUserToolType
  | menu | context
deriving DecidableEq

/-- A tool that has been loaded. -/
structure ToolInfo where
  id : ToolString
  mergeId : ℕ
deriving DecidableEq

/-- The action of a tool, in the class of the windows or of the documents. -/
structure ToolAction (κ : Type*) where
  displayName : ToolString
  label : ToolString
  accel : Option ToolString
  filter : Option ToolString
  command : κ

/-- The tools of a type, with the description and the class that they are put into. -/
structure ToolStore (κ : Type*) where
  xml : MooUiXml
  tools : List ToolInfo
  actions : ToolString → Option (ToolAction κ)

/-! ## Names -/

/-- What is before the last slash and what is behind it. -/
def lastSlash : ToolString → Option (ToolString × ToolString)
  | [] => none
  | c :: s =>
    match lastSlash s with
    | some (path, label) => some (c :: path, label)
    | none => if c = '/'.toUInt8 then some ([], s) else none

/-- The path of the placeholder for tools in a menu. -/
def userMenu (info : MooUserToolInfo) : ToolString :=
  ascii "Editor/Menubar/".toList ++
    (info.menu.getD (ascii "Tools".toList) ++ ascii "/UserMenu".toList)

/-- Items one in another. -/
def menuMarkup : List ToolString → Markup
  | [] => .nil
  | comp :: comps => .element "item" [("name", comp), ("label", comp)] (menuMarkup comps) .nil

/-- The item of an action. -/
def itemMarkup (id : ToolString) : Markup := .element "item" [("action", id)] .nil .nil

/-- What `parse_name` says of a tool. -/
structure ToolPlace where
  name : ToolString
  label : ToolString
  uiPath : ToolString

/-- `parse_name`; the first underscore is taken out of the name. -/
def parseName (mem : KeyedQueue.Allocator) (type : MooUserToolType) (info : MooUserToolInfo)
    (xml : MooUiXml) (mergeId : ℕ) : ToolPlace × MooUiXml :=
  let infoName := info.name.getD []
  let name := infoName.erase '_'.toUInt8
  match type with
  | .context =>
    match info.position with
    | .atStart => (⟨name, infoName, ascii "Editor/Popup/PopupStart".toList⟩, xml)
    | .atEnd => (⟨name, infoName, ascii "Editor/Popup/PopupEnd".toList⟩, xml)
  | .menu =>
    let ph := userMenu info
    match lastSlash infoName with
    | none => (⟨name, infoName, ph⟩, xml)
    | some (path, label) =>
      let uiPath := ph ++ '/'.toUInt8 :: path
      let place := ⟨name, label, uiPath⟩
      match xml.getNode uiPath with
      | some _ => (place, xml)
      | none =>
        match xml.getNode ph with
        | none => (place, xml)
        | some parent =>
          (place, xml.insert mem mergeId (some parent) (-1) (some (menuMarkup (pieces path))))

/-! ## Loading -/

section Loading

variable {κ : Type*} (mem : KeyedQueue.Allocator) (create : MooUserToolInfo → Option κ)
  (type : MooUserToolType)

/-- `check_info`, without the factory. -/
def checkInfo (info : MooUserToolInfo) : Bool := info.id ≠ [] && info.name.getD [] ≠ []

/-- `load_tool`. `create` is `moo_command_create`, and nothing where there is no factory. -/
def loadTool (st : ToolStore κ) (info : MooUserToolInfo) : ToolStore κ :=
  if ¬ checkInfo info ∨ ¬ info.enabled then st
  else
    match create info with
    | none => st
    | some command =>
      let xml := st.xml.newMergeId
      let mergeId := xml.lastMergeId
      let (place, xml) := parseName mem type info xml mergeId
      let action := ⟨place.name, place.label, info.accel, info.filter, command⟩
      { xml := xml.insertMarkup mem mergeId (some place.uiPath) (-1) (some (itemMarkup info.id))
        tools := ⟨info.id, mergeId⟩ :: st.tools
        actions := update st.actions info.id (some action) }

/-- The loop of `_moo_edit_load_user_tools_type`. -/
def loadTools (st : ToolStore κ) (infos : List MooUserToolInfo) : ToolStore κ :=
  infos.foldl (loadTool mem create type) st

/-- `unload_user_tools`; it is `none` where the program crashes. -/
def unloadUserTools (st : ToolStore κ) : Option (ToolStore κ) :=
  (st.tools.foldlM (fun xml tool => removeUi xml tool.mergeId) st.xml).map fun xml =>
    { xml := xml
      tools := []
      actions := fun id => if id ∈ st.tools.map (·.id) then none else st.actions id }

end Loading

/-! ## Where an item belongs -/

/-- The submenus in the name of a tool. -/
def submenus (info : MooUserToolInfo) : List ToolString :=
  match lastSlash (info.name.getD []) with
  | none => []
  | some (path, _) => pieces path

/-- The paths of submenus that are not there. -/
def missing (xml : MooUiXml) (ph : ℕ) (comps : List ToolString) : List (List ToolString) :=
  comps.inits.filter fun path => (xml.getChildOf ph path).isNone

/-- The item of a tool has come below the node of its path, and with it a node for each submenu that
was missing, and nothing else. -/
def Placed (xml xml' : MooUiXml) (info : MooUserToolInfo) : Prop :=
  ∃ ph, xml.getNode (userMenu info) = some ph ∧
    ∃ parent item subs, xml'.getChildOf ph (submenus info) = some parent ∧
      item ∈ (xml'.ui.kidsOf parent).tops ∧
      xml'.data item = itemNew (some info.id) (some info.id) ∧
      (missing xml ph (submenus info)).map (xml'.getChildOf ph) = subs.map some ∧
      xml'.ui.nodes.Perm (item :: (subs ++ xml.ui.nodes))

/-- The path of a tool is there, or nothing of it is, and items may be put where it ends or where it
starts. -/
def Fits (xml : MooUiXml) (info : MooUserToolInfo) : Prop :=
  ∃ ph, xml.getNode (userMenu info) = some ph ∧
    match xml.getChildOf ph (submenus info) with
    | some parent => canHold (xml.data parent).type .item
    | none => canHold (xml.data ph).type .item ∧ xml.getChildOf ph ((submenus info).take 1) = none

section Runs

variable {κ : Type*} (mem : KeyedQueue.Allocator) (create : MooUserToolInfo → Option κ)

/-- Nothing keeps a tool from being loaded. -/
structure Loadable (info : MooUserToolInfo) : Prop where
  checked : checkInfo info
  enabled : info.enabled
  command : (create info).isSome

/-- Each item comes to its place when its tool is loaded. -/
def AllPlaced (st : ToolStore κ) : List MooUserToolInfo → Prop
  | [] => True
  | info :: infos =>
    let st₁ := loadTool mem create .menu st info
    Placed st.xml st₁.xml info ∧ AllPlaced st₁ infos

/-- Each path fits when its tool is loaded. -/
def AllFit (st : ToolStore κ) : List MooUserToolInfo → Prop
  | [] => True
  | info :: infos => Fits st.xml info ∧ AllFit (loadTool mem create .menu st info) infos

end Runs

variable {M : KeyedQueue.Allocator} {xml xml₁ : MooUiXml} {info : MooUserToolInfo}
  {id ph v z c : ℕ} {comps rest : List ToolString} {p i : ToolString} {m : Merge}

/-! ## Names -/

theorem getNode_uiPath :
    xml₁.getNode (parseName M .menu info xml id).1.uiPath =
      (xml₁.getNode (userMenu info)).bind fun ph => xml₁.getChildOf ph (submenus info) := by
  simp only [parseName, submenus]
  cases hslash : lastSlash (info.name.getD []) with
  | none =>
    cases xml₁.getNode (userMenu info) <;> simp [getChildOf]
  | some split =>
    obtain ⟨path, label⟩ := split
    simp only
    split
    · exact getNode_append ..
    · split <;> exact getNode_append ..

theorem parseName_of_none (h : xml.getNode (userMenu info) = none) :
    (parseName M .menu info xml id).2 = xml := by
  simp only [parseName, h]
  split
  · rfl
  · split <;> rfl

theorem parseName_of_some (h : xml.getNode (userMenu info) = some ph)
    (hz : xml.getChildOf ph (submenus info) = some z) :
    (parseName M .menu info xml id).2 = xml := by
  simp only [parseName]
  cases hslash : lastSlash (info.name.getD []) with
  | none => rfl
  | some split =>
    obtain ⟨path, label⟩ := split
    rw [submenus, hslash] at hz
    simp [getNode_append, h, hz]

theorem parseName_of_missing (h : xml.getNode (userMenu info) = some ph)
    (hz : xml.getChildOf ph (submenus info) = none) :
    (parseName M .menu info xml id).2 =
      xml.insert M id (some ph) (-1) (some (menuMarkup (submenus info))) := by
  simp only [parseName]
  cases hslash : lastSlash (info.name.getD []) with
  | none => simp [submenus, hslash, getChildOf] at hz
  | some split =>
    obtain ⟨path, label⟩ := split
    rw [submenus, hslash] at hz ⊢
    simp [getNode_append, h, hz]

/-! ## What is inserted -/

/-- The nodes of submenus. -/
def chain : List ToolString → Forest MooUiNode
  | [] => .nil
  | comp :: comps => .node (itemNew (some comp) none) (chain comps) .nil

theorem parseItem_submenu (k : Option (Forest MooUiNode)) :
    parseItem [("name", p), ("label", p)] k = k.map fun k => (itemNew (some p) none, k) := by
  simp [parseItem, markupGetProp, List.lookup_cons]

theorem parseItem_action (k : Option (Forest MooUiNode)) :
    parseItem [("action", i)] k = k.map fun k => (itemNew (some i) (some i), k) := by
  simp [parseItem, markupGetProp, List.lookup_cons]

theorem parseChildren_menuMarkup (comps : List ToolString) :
    parseChildren (menuMarkup comps) = some (chain comps) := by
  induction comps with
  | nil => rfl
  | cons comp comps ih =>
    simp [menuMarkup, parseChildren, ih, parseMarkup, parseItem_submenu, chain]

theorem checkChildren_chain (comps : List ToolString) :
    checkChildren (!·.inContainer) (chain comps) := by
  induction comps with
  | nil => rfl
  | cons comp comps ih =>
    simpa [chain, checkChildren, itemNew, nodeNew, MooUiNodeType.inContainer] using ih

theorem acceptElement_menuMarkup (t : MooUiNodeType) (p : ToolString) (comps : List ToolString) :
    acceptElement t ⟨"item", [("name", p), ("label", p)], menuMarkup comps⟩ =
      if canHold t .item then some (itemNew (some p) none, chain comps) else none := by
  have hcheck : nodeCheck (itemNew (some p) none) (chain comps) := checkChildren_chain comps
  have htype : (itemNew (some p) none).type = .item := rfl
  simp [acceptElement, parseMarkupElement, parseMarkup, parseItem_submenu,
    parseChildren_menuMarkup, hcheck, htype]

theorem acceptElement_itemMarkup (t : MooUiNodeType) (i : ToolString) :
    acceptElement t ⟨"item", [("action", i)], .nil⟩ =
      if canHold t .item then some (itemNew (some i) (some i), .nil) else none := by
  have hcheck : nodeCheck (itemNew (some i) (some i)) .nil := rfl
  have htype : (itemNew (some i) (some i)).type = .item := rfl
  simp [acceptElement, parseMarkupElement, parseMarkup, parseItem_action, parseChildren, hcheck,
    htype]

/-- An item comes behind what is below a node. -/
theorem inserted_itemMarkup (hg : xml.Good) (hm : xml.lookupMerge id = some m)
    (hz : z ∈ xml.ui.nodes) (hcan : canHold (xml.data z).type .item) :
    ∃ x, xml.Inserted (xml.insert M id (some z) (-1) (some (itemMarkup i))) id z
      (xml.ui.kidsOf z).tops.length (.node x .nil .nil)
      (.node (itemNew (some i) (some i)) .nil .nil) := by
  have he := (acceptElement_itemMarkup (xml.data z).type i).trans (if_pos hcan)
  obtain ⟨-, g, h⟩ := hg.insertOne (M := M) hm hz he
  obtain ⟨x, k, r, rfl, -, hk, hr⟩ := Forest.eq_node_of_map h.data
  obtain rfl := Forest.eq_nil_of_map hk
  obtain rfl := Forest.eq_nil_of_map hr
  exact ⟨x, h⟩

theorem insert_itemMarkup_refused (hcan : ¬ canHold (xml.data z).type .item) :
    xml.insert M id (some z) (-1) (some (itemMarkup i)) = xml :=
  insert_refused ((acceptElement_itemMarkup (xml.data z).type i).trans (if_neg hcan))

/-- Where a path does not lead, an item that comes somewhere is not below its end. -/
theorem not_below_insertMarkup (hg : xml.Good) (hm : xml.lookupMerge id = some m)
    (hph : ph ∈ xml.ui.nodes) (hnone : xml.getChildOf ph comps = none) (path : ToolString) {x : ℕ}
    (hz : (xml.insertMarkup M id (some path) (-1) (some (itemMarkup i))).getChildOf ph comps =
      some z) :
    x ∉ ((xml.insertMarkup M id (some path) (-1) (some (itemMarkup i))).ui.kidsOf z).tops := by
  unfold MooUiXml.insertMarkup at hz ⊢
  simp only at hz ⊢
  split at hz
  · simp [hnone] at hz
  case h_2 w hw =>
    have hmem := mem_of_findNode hw
    by_cases hcan : canHold (xml.data w).type .item
    · obtain ⟨y, h⟩ := inserted_itemMarkup (M := M) (i := i) hg hm hmem hcan
      obtain hold | hnew := h.getChildOf_old hg hmem hph hz
      · simp [hnone] at hold
      · -- the end of the path is the item itself
        obtain rfl : z = y := by simpa using hnew
        rw [h.ui, Forest.kidsOf_insertAt_new hg.nodup hmem (h.fresh z hnew)]
        simp [Forest.kidsOf]
    · rw [insert_itemMarkup_refused hcan, hnone] at hz
      simp at hz

/-! ## The submenus of a path -/

/-- The paths along a chain lead to its nodes. -/
theorem map_getChildOf_chain {k : Forest ℕ} (hone : xml.getChildOf v [p] = some c)
    (hdata : k.map xml.data = chain rest)
    (hkids : ∀ y ∈ c :: k.nodes, xml.ui.kidsOf y = (Forest.node c k .nil).kidsOf y)
    (hnd : (c :: k.nodes).Nodup) :
    (rest.inits.map (p :: ·)).map (xml.getChildOf v) = (c :: k.nodes).map some := by
  induction rest generalizing v p c k with
  | nil =>
    obtain rfl := Forest.eq_nil_of_map hdata
    simp [hone]
  | cons q rest ih =>
    obtain ⟨c', k', r, rfl, hc', hk', hr⟩ := Forest.eq_node_of_map hdata
    obtain rfl := Forest.eq_nil_of_map hr
    obtain ⟨hc, hnd'⟩ := List.nodup_cons.1 hnd
    have hkids' (y : ℕ) (hy : y ∈ c' :: k'.nodes) :
        xml.ui.kidsOf y = (Forest.node c' k' .nil).kidsOf y := by
      have hyc : c ≠ y := fun h => hc (h ▸ by simpa using hy)
      rw [hkids y (List.mem_cons_of_mem _ (by simpa using hy)), Forest.kidsOf, if_neg hyc]
      simp [Forest.kidsOf]
    have hone' : xml.getChildOf c [q] = some c' := by
      have hkc := hkids c (by simp)
      simp only [Forest.kidsOf, if_true] at hkc
      simp [getChildOf, hkc, hc', itemNew, nodeNew]
    have hstep (path : List ToolString) : xml.getChildOf v (p :: path) = xml.getChildOf c path := by
      rw [← List.singleton_append, getChildOf_append, hone]
      rfl
    have hbelow := ih hone' hk' hkids' (by simpa using hnd')
    rw [List.map_map] at hbelow ⊢
    simp only [List.inits_cons, List.map_cons, List.map_map, Function.comp_def, hstep,
      Forest.nodes_node, Forest.nodes_nil, List.append_nil] at hbelow ⊢
    rw [hbelow, getChildOf]

/-- The path of a tool is not there because its first submenu is not. -/
theorem missing_of_first (hone : xml.getChildOf ph [p] = none) :
    missing xml ph (p :: rest) = rest.inits.map (p :: ·) := by
  have hpath (path : List ToolString) : xml.getChildOf ph (p :: path) = none := by
    rw [← List.singleton_append, getChildOf_append, hone]
    rfl
  rw [missing, List.inits_cons, List.filter_cons_of_neg (by simp [getChildOf]), List.filter_eq_self]
  simp [hpath]

theorem type_of_mem_chain {g : Forest ℕ} (hdata : g.map xml.data = chain comps)
    (hz : z ∈ g.nodes) : (xml.data z).type = .item := by
  induction comps generalizing g with
  | nil =>
    obtain rfl := Forest.eq_nil_of_map hdata
    simp at hz
  | cons comp comps ih =>
    obtain ⟨c, k, r, rfl, hc, hk, hr⟩ := Forest.eq_node_of_map hdata
    obtain rfl := Forest.eq_nil_of_map hr
    obtain rfl | hz : z = c ∨ z ∈ k.nodes := by simpa using hz
    · rw [hc]
      rfl
    · exact ih hk hz

/-- Submenus come behind what is below a node. -/
theorem inserted_menuMarkup (hg : xml.Good) (hm : xml.lookupMerge id = some m)
    (hph : ph ∈ xml.ui.nodes) (hcan : canHold (xml.data ph).type .item) (p : ToolString)
    (rest : List ToolString) :
    ∃ c k, xml.Inserted (xml.insert M id (some ph) (-1) (some (menuMarkup (p :: rest)))) id ph
      (xml.ui.kidsOf ph).tops.length (.node c k .nil) (chain (p :: rest)) := by
  have he := (acceptElement_menuMarkup (xml.data ph).type p rest).trans (if_pos hcan)
  obtain ⟨-, g, h⟩ := hg.insertOne (M := M) hm hph he
  obtain ⟨c, k, r, rfl, -, -, hr⟩ := Forest.eq_node_of_map h.data
  obtain rfl := Forest.eq_nil_of_map hr
  exact ⟨c, k, h⟩

theorem insert_menuMarkup_refused (hcan : ¬ canHold (xml.data ph).type .item) :
    xml.insert M id (some ph) (-1) (some (menuMarkup (p :: rest))) = xml :=
  insert_refused ((acceptElement_menuMarkup (xml.data ph).type p rest).trans (if_neg hcan))

/-- Submenus of which nothing is there are made. -/
theorem getChildOf_menuMarkup (hg : xml.Good) (hph : ph ∈ xml.ui.nodes) {k : Forest ℕ}
    (hone : xml.getChildOf ph [p] = none)
    (h : xml.Inserted xml₁ id ph (xml.ui.kidsOf ph).tops.length (.node c k .nil)
      (chain (p :: rest))) :
    (missing xml ph (p :: rest)).map (xml₁.getChildOf ph) = (c :: k.nodes).map some := by
  have hnodes : (Forest.node c k .nil).nodes = c :: k.nodes := by simp
  have hdata := h.data
  simp only [Forest.map, chain, Forest.node.injEq, and_true] at hdata
  have hfirst : xml₁.getChildOf ph [p] = some c := by
    have htops : (xml₁.ui.kidsOf ph).tops = (xml.ui.kidsOf ph).tops ++ [c] := by
      rw [h.ui, Forest.kidsOf_insertAt hg.nodup hph, Forest.tops_insertTops le_rfl]
      simp
    have hold : (xml.ui.kidsOf ph).tops.find? (fun y => (xml₁.data y).name = p) = none := by
      rw [List.find?_congr fun y hy => by
        rw [h.old y (Forest.kidsOf_subset (Forest.tops_subset hy))]]
      cases hc : (xml.ui.kidsOf ph).tops.find? fun y => (xml.data y).name = p with
      | none => rfl
      | some y => simp [getChildOf, hc] at hone
    simp [getChildOf, htops, List.find?_append, hold, hdata.1, itemNew, nodeNew]
  rw [missing_of_first hone]
  refine map_getChildOf_chain hfirst hdata.2 (fun y hy => ?_) (hnodes ▸ h.nodup)
  rw [h.ui, Forest.kidsOf_insertAt_new hg.nodup hph (h.fresh y (hnodes ▸ hy))]

/-- Below the first submenu of a path nothing comes with a second one of its name. -/
theorem getChildOf_second (hg : xml.Good) (hph : ph ∈ xml.ui.nodes) {k : Forest ℕ}
    (hone : xml.getChildOf ph [p] = some v) (hnone : xml.getChildOf ph (p :: rest) = none)
    (h : xml.Inserted xml₁ id ph (xml.ui.kidsOf ph).tops.length (.node c k .nil)
      (chain (p :: rest))) :
    xml₁.getChildOf ph (p :: rest) = none := by
  have hv : v ∈ (xml.ui.kidsOf ph).tops := by
    rw [getChildOf] at hone
    split at hone
    · simp at hone
    case h_2 y hy =>
      obtain rfl : y = v := by simpa [getChildOf] using hone
      exact List.mem_of_find?_eq_some hy
  have hmem : v ∈ xml.ui.nodes := Forest.kidsOf_subset (Forest.tops_subset hv)
  have hsame : xml₁.getChildOf v rest = xml.getChildOf v rest := by
    refine getChildOf_congr hg.nodup hmem (fun y hy => ?_) (fun y hy => ?_) rest
    · have hyph : y ≠ ph := fun heq =>
        Forest.not_mem_under_of_kidsOf hg.nodup (Forest.tops_subset hv) (heq ▸ hy)
      rw [h.ui]
      exact Forest.tops_kidsOf_insertAt hyph fun hyg => h.fresh y hyg (Forest.under_subset hy)
    · exact h.old y (Forest.under_subset hy)
  have hfirst := (h.extends hg hph).getChildOf hph hone
  rw [← List.singleton_append, getChildOf_append, hone] at hnone
  rw [← List.singleton_append, getChildOf_append, hfirst]
  exact hsame.trans hnone

/-! ## One tool -/

/-- Where the path is there with its submenus, the item comes to its place. -/
theorem placed_of_path (hext : xml.Extends xml₁) (hg₁ : xml₁.Good)
    (hm₁ : xml₁.lookupMerge id = some m) (hph : xml.getNode (userMenu info) = some ph)
    {path : ToolString} (hpath : xml₁.getNode path = some z)
    (hz : xml₁.getChildOf ph (submenus info) = some z) (hcan : canHold (xml₁.data z).type .item)
    {subs : List ℕ}
    (hsubs : (missing xml ph (submenus info)).map (xml₁.getChildOf ph) = subs.map some)
    (hnodes : xml₁.ui.nodes.Perm (subs ++ xml.ui.nodes)) :
    Placed xml (xml₁.insertMarkup M id (some path) (-1) (some (itemMarkup info.id))) info := by
  have hmem := mem_of_getNode hpath
  have hph₁ : ph ∈ xml₁.ui.nodes := hext.nodes (mem_of_getNode hph)
  have hinsert : xml₁.insertMarkup M id (some path) (-1) (some (itemMarkup info.id)) =
      xml₁.insert M id (some z) (-1) (some (itemMarkup info.id)) := by
    simp [MooUiXml.insertMarkup, findNode, hpath]
  obtain ⟨x, h⟩ := inserted_itemMarkup (M := M) (i := info.id) hg₁ hm₁ hmem hcan
  have hext₁ := h.extends hg₁ hmem
  rw [hinsert]
  refine ⟨ph, hph, z, x, subs, hext₁.getChildOf hph₁ hz, ?_, ?_, ?_, ?_⟩
  · rw [h.ui, Forest.kidsOf_insertAt hg₁.nodup hmem, Forest.tops_insertTops le_rfl]
    simp
  · simpa [Forest.map] using h.data
  · rw [← hsubs]
    refine List.map_congr_left fun sub hsub => ?_
    have hin := List.mem_map_of_mem (f := xml₁.getChildOf ph) hsub
    rw [hsubs] at hin
    obtain ⟨w, -, hw⟩ := List.mem_map.1 hin
    rw [← hw]
    exact hext₁.getChildOf hph₁ hw.symm
  · rw [h.ui]
    exact (Forest.perm_insertAt hg₁.nodup hmem).trans (hnodes.cons x)

/-- Where the path is not there, the item does not come to its place. -/
theorem not_placed_of_none (hg₁ : xml₁.Good) (hm₁ : xml₁.lookupMerge id = some m)
    (hph : xml.getNode (userMenu info) = some ph) (hph₁ : ph ∈ xml₁.ui.nodes)
    (hnone : xml₁.getChildOf ph (submenus info) = none) (path : ToolString) :
    ¬ Placed xml (xml₁.insertMarkup M id (some path) (-1) (some (itemMarkup info.id))) info := by
  rintro ⟨ph', hph', parent, item, subs, hparent, hitem, -⟩
  obtain rfl : ph = ph' := Option.some.inj (hph.symm.trans hph')
  exact not_below_insertMarkup hg₁ hm₁ hph₁ hnone path hparent hitem

/-- Where a node of the path does not take items, nothing comes. -/
theorem not_placed_self : ¬ Placed xml xml info := by
  rintro ⟨ph, -, parent, item, subs, -, -, -, -, hnodes⟩
  have hlen := hnodes.length_eq
  simp only [List.length_cons, List.length_append] at hlen
  omega

theorem missing_of_path (hz : xml.getChildOf ph comps = some z) : missing xml ph comps = [] := by
  rw [missing, List.filter_eq_nil_iff]
  intro sub hsub
  obtain ⟨w, hw⟩ := Option.isSome_iff_exists.1 <|
    isSome_getChildOf_of_prefix ((List.mem_inits ..).1 hsub) (by rw [hz]; rfl)
  simp [hw]

/-- The path is there. -/
theorem placed_iff_of_path (hg : xml.Good) (hm : xml.lookupMerge id = some m)
    (hph : xml.getNode (userMenu info) = some ph)
    (hz : xml.getChildOf ph (submenus info) = some z) {path : ToolString}
    (hpath : xml.getNode path = some z) :
    Placed xml (xml.insertMarkup M id (some path) (-1) (some (itemMarkup info.id))) info ↔
      canHold (xml.data z).type .item := by
  by_cases hcan : canHold (xml.data z).type .item
  · refine iff_of_true ?_ hcan
    have hsubs : (missing xml ph (submenus info)).map (xml.getChildOf ph) =
        ([] : List ℕ).map some := by simp [missing_of_path hz]
    exact placed_of_path (.refl xml) hg hm hph hpath hz hcan hsubs .rfl
  · refine iff_of_false ?_ hcan
    have hsame : xml.insertMarkup M id (some path) (-1) (some (itemMarkup info.id)) = xml := by
      simp [MooUiXml.insertMarkup, findNode, hpath, insert_itemMarkup_refused hcan]
    rw [hsame]
    exact not_placed_self

/-- The path is not there, and submenus are made. -/
theorem placed_iff_of_missing (hg : xml.Good) (hm : xml.lookupMerge id = some m)
    (hph : xml.getNode (userMenu info) = some ph)
    (hz : xml.getChildOf ph (submenus info) = none) {path : ToolString}
    (hpath : ∀ xml₁, xml.Extends xml₁ → xml₁.getNode path = xml₁.getChildOf ph (submenus info)) :
    let xml₁ := xml.insert M id (some ph) (-1) (some (menuMarkup (submenus info)))
    Placed xml (xml₁.insertMarkup M id (some path) (-1) (some (itemMarkup info.id))) info ↔
      canHold (xml.data ph).type .item ∧ xml.getChildOf ph ((submenus info).take 1) = none := by
  intro xml₁
  have hmem := mem_of_getNode hph
  obtain ⟨p, rest, hcomps⟩ : ∃ p rest, submenus info = p :: rest := by
    cases hcomps : submenus info with
    | nil => simp [hcomps, getChildOf] at hz
    | cons p rest => exact ⟨p, rest, rfl⟩
  have htake : (submenus info).take 1 = [p] := by simp [hcomps]
  have hinsert : xml₁ = xml.insert M id (some ph) (-1) (some (menuMarkup (p :: rest))) := by
    rw [← hcomps]
  by_cases hcan : canHold (xml.data ph).type .item
  · obtain ⟨c, k, h⟩ := inserted_menuMarkup (M := M) hg hm hmem hcan p rest
    rw [← hinsert] at h
    have hext := h.extends hg hmem
    have hg₁ : xml₁.Good := hg.insert ..
    obtain ⟨_, m₁, -, hm₁, -⟩ := h.owned
    cases hone : xml.getChildOf ph [p] with
    | none =>
      have hsubs := getChildOf_menuMarkup hg hmem hone h
      obtain ⟨z, hzk, hz₁⟩ : ∃ z ∈ c :: k.nodes, some z = xml₁.getChildOf ph (p :: rest) := by
        refine List.mem_map.1 (hsubs ▸ List.mem_map_of_mem ?_)
        rw [missing_of_first hone]
        exact List.mem_map_of_mem ((List.mem_inits ..).2 (List.prefix_refl rest))
      have htype := type_of_mem_chain h.data (z := z) (by simpa using hzk)
      rw [← hcomps] at hsubs hz₁
      refine iff_of_true ?_ ⟨hcan, htake ▸ hone⟩
      refine placed_of_path hext hg₁ hm₁ hph ((hpath _ hext).trans hz₁.symm) hz₁.symm ?_ hsubs ?_
      · simp [canHold, htype]
      · rw [h.ui]
        simpa using Forest.perm_insertAt (g := .node c k .nil) hg.nodup hmem
    | some v =>
      have hnone := getChildOf_second hg hmem hone (hcomps ▸ hz) h
      refine iff_of_false ?_ fun hfits => by simp [htake, hone] at hfits
      exact not_placed_of_none hg₁ hm₁ hph (hext.nodes hmem) (hcomps ▸ hnone) _
  · rw [hinsert, insert_menuMarkup_refused hcan]
    exact iff_of_false (not_placed_of_none hg hm hph hmem hz _) fun hfits => hcan hfits.1

/-- The item of a tool comes to its place if and only if the path is there, or nothing of it. -/
theorem placed_iff_fits (hg : xml.Good) (hm : xml.lookupMerge id = some m) :
    let (place, xml₁) := parseName M .menu info xml id
    Placed xml (xml₁.insertMarkup M id (some place.uiPath) (-1) (some (itemMarkup info.id))) info ↔
      Fits xml info := by
  simp only
  cases hph : xml.getNode (userMenu info) with
  | none =>
    exact iff_of_false (fun ⟨_, h, _⟩ => by simp [hph] at h) fun ⟨_, h, _⟩ => by simp [hph] at h
  | some ph =>
    have hpath (xml₁ : MooUiXml) (hext : xml.Extends xml₁) :
        xml₁.getNode (parseName M .menu info xml id).1.uiPath =
          xml₁.getChildOf ph (submenus info) := by
      rw [getNode_uiPath, hext.getNode hph]
      rfl
    cases hz : xml.getChildOf ph (submenus info) with
    | some z =>
      have hfits : Fits xml info ↔ canHold (xml.data z).type .item := by simp [Fits, hph, hz]
      rw [hfits, parseName_of_some hph hz]
      exact placed_iff_of_path hg hm hph hz ((hpath xml (.refl xml)).trans hz)
    | none =>
      have hfits : Fits xml info ↔ canHold (xml.data ph).type .item ∧
          xml.getChildOf ph ((submenus info).take 1) = none := by simp [Fits, hph, hz]
      rw [hfits, parseName_of_missing hph hz]
      exact placed_iff_of_missing hg hm hph hz hpath

/-! ## Any number of tools -/

section Runs

variable {κ : Type*} {create : MooUserToolInfo → Option κ} {type : MooUserToolType}
  {st : ToolStore κ} {infos : List MooUserToolInfo}

theorem parseName_xml (M : KeyedQueue.Allocator) (type : MooUserToolType) (info : MooUserToolInfo)
    (xml : MooUiXml) (id : ℕ) :
    (parseName M type info xml id).2 = xml ∨
      ∃ node markup, (parseName M type info xml id).2 = xml.insert M id node (-1) markup := by
  cases type with
  | context =>
    left
    simp only [parseName]
    split <;> rfl
  | menu =>
    cases hph : xml.getNode (userMenu info) with
    | none => exact .inl (parseName_of_none hph)
    | some ph =>
      cases hz : xml.getChildOf ph (submenus info) with
      | some z => exact .inl (parseName_of_some hph hz)
      | none => exact .inr ⟨_, _, parseName_of_missing hph hz⟩

theorem loadTool_cases (M : KeyedQueue.Allocator) (create : MooUserToolInfo → Option κ)
    (type : MooUserToolType) (st : ToolStore κ) (info : MooUserToolInfo) :
    loadTool M create type st info = st ∨ ∃ path action,
      let xml := st.xml.newMergeId
      let xml₁ := (parseName M type info xml xml.lastMergeId).2
      loadTool M create type st info =
        ⟨xml₁.insertMarkup M xml.lastMergeId (some path) (-1) (some (itemMarkup info.id)),
          ⟨info.id, xml.lastMergeId⟩ :: st.tools, update st.actions info.id (some action)⟩ := by
  simp only [loadTool]
  split
  · exact .inl rfl
  · split
    · exact .inl rfl
    · exact .inr ⟨_, _, rfl⟩

/-- What a tool puts into a description comes behind the rest, and belongs to its merge. -/
theorem loadTool_step (M : KeyedQueue.Allocator) (create : MooUserToolInfo → Option κ)
    (hg : st.xml.Good) (type : MooUserToolType) (info : MooUserToolInfo) :
    let st₁ := loadTool M create type st info
    st₁.xml.Good ∧ st.xml.Extends st₁.xml ∧
      (st₁ = st ∨ st₁.tools = ⟨info.id, st.xml.newMergeId.lastMergeId⟩ :: st.tools ∧
        st.xml.newMergeId.Undoable st₁.xml st.xml.newMergeId.lastMergeId) := by
  intro st₁
  obtain h | ⟨path, action, h⟩ := loadTool_cases M create type st info
  · rw [show st₁ = st from h]
    exact ⟨hg, .refl _, .inl rfl⟩
  · dsimp only at h
    have hg₀ := hg.newMergeId
    have hext₀ : st.xml.Extends st.xml.newMergeId :=
      ⟨rfl, List.Subset.refl _, fun _ _ => List.prefix_refl _, fun _ _ => rfl⟩
    set xml₀ := st.xml.newMergeId
    set xml₁ := (parseName M type info xml₀ xml₀.lastMergeId).2 with hxml₁
    have hparse : xml₁.Good ∧ xml₀.Extends xml₁ ∧ xml₀.Undoable xml₁ xml₀.lastMergeId := by
      obtain h | ⟨node, markup, h⟩ := parseName_xml M type info xml₀ xml₀.lastMergeId <;>
        rw [hxml₁, h]
      · exact ⟨hg₀, .refl _, .refl _ _⟩
      · exact ⟨hg₀.insert .., hg₀.insert_extends .., hg₀.insert_undoable ..⟩
    obtain ⟨hg₁, hext₁, hundo₁⟩ := hparse
    have hxml : st₁.xml = xml₁.insertMarkup M xml₀.lastMergeId (some path) (-1)
        (some (itemMarkup info.id)) := congrArg ToolStore.xml h
    have htools : st₁.tools = ⟨info.id, xml₀.lastMergeId⟩ :: st.tools := congrArg ToolStore.tools h
    rw [hxml]
    refine ⟨hg₁.insertMarkup .., hext₀.trans (hext₁.trans (hg₁.insertMarkup_extends ..)), .inr ?_⟩
    exact ⟨htools, hundo₁.trans (hg₁.insertMarkup_undoable ..)⟩

theorem loadTool_placed_iff (hg : st.xml.Good) (h : Loadable create info) :
    Placed st.xml (loadTool M create .menu st info).xml info ↔ Fits st.xml info := by
  obtain ⟨command, hcommand⟩ := Option.isSome_iff_exists.1 h.command
  have hplaced {xml' : MooUiXml} :
      Placed st.xml xml' info ↔ Placed st.xml.newMergeId xml' info := by
    simp only [Placed, missing, getNode_newMergeId, getChildOf_newMergeId]
    rfl
  have hfits : Fits st.xml info ↔ Fits st.xml.newMergeId info := by
    simp only [Fits, getNode_newMergeId, getChildOf_newMergeId]
    rfl
  have hlook : st.xml.newMergeId.lookupMerge st.xml.newMergeId.lastMergeId =
      some ⟨st.xml.newMergeId.lastMergeId, []⟩ := by
    simp [MooUiXml.lookupMerge, newMergeId]
  simp only [loadTool, h.checked, h.enabled, not_true_eq_false, or_self, if_false, hcommand]
  rw [hplaced, hfits]
  exact placed_iff_fits hg.newMergeId hlook

theorem loadTools_good (hg : st.xml.Good) (infos : List MooUserToolInfo) :
    (loadTools M create type st infos).xml.Good ∧
      st.xml.Extends (loadTools M create type st infos).xml := by
  induction infos generalizing st with
  | nil => exact ⟨hg, .refl _⟩
  | cons info infos ih =>
    obtain ⟨hg₁, hext₁, -⟩ := loadTool_step M create hg type info
    obtain ⟨hg₂, hext₂⟩ := ih hg₁
    exact ⟨hg₂, hext₁.trans hext₂⟩

theorem allPlaced_iff (hg : st.xml.Good) (h : ∀ info ∈ infos, Loadable create info) :
    AllPlaced M create st infos ↔ AllFit M create st infos := by
  induction infos generalizing st with
  | nil => rfl
  | cons info infos ih =>
    have hg₁ := (loadTool_step M create hg .menu info).1
    rw [AllPlaced, AllFit, loadTool_placed_iff hg (h info (by simp)),
      ih hg₁ fun i hi => h i (List.mem_cons_of_mem _ hi)]

/-- The item of a tool is below the node of its path. -/
def HasItem (xml : MooUiXml) (info : MooUserToolInfo) : Prop :=
  ∃ ph parent item, xml.getNode (userMenu info) = some ph ∧
    xml.getChildOf ph (submenus info) = some parent ∧ item ∈ (xml.ui.kidsOf parent).tops ∧
    xml.data item = itemNew (some info.id) (some info.id)

theorem Placed.hasItem (hext : xml.Extends xml₁) (h : Placed xml xml₁ info) :
    HasItem xml₁ info := by
  obtain ⟨ph, hph, parent, item, subs, hparent, hitem, hdata, -⟩ := h
  exact ⟨ph, parent, item, hext.getNode hph, hparent, hitem, hdata⟩

theorem HasItem.extends (h : HasItem xml info) (hext : xml.Extends xml₁) : HasItem xml₁ info := by
  obtain ⟨ph, parent, item, hph, hparent, hitem, hdata⟩ := h
  have hmem := mem_of_getNode hph
  have hin := mem_of_getChildOf hmem hparent
  refine ⟨ph, parent, item, hext.getNode hph, hext.getChildOf hmem hparent,
    (hext.tops parent hin).subset hitem, ?_⟩
  rw [hext.data item (Forest.kidsOf_subset (Forest.tops_subset hitem)), hdata]

theorem AllPlaced.hasItem (hg : st.xml.Good) (h : AllPlaced M create st infos) :
    ∀ info ∈ infos, HasItem (loadTools M create .menu st infos).xml info := by
  induction infos generalizing st with
  | nil => simp
  | cons info infos ih =>
    obtain ⟨hg₁, hext₁, -⟩ := loadTool_step M create hg .menu info
    obtain ⟨hplaced, hrest⟩ := h
    intro i hi
    obtain rfl | hi := List.mem_cons.1 hi
    · exact (hplaced.hasItem hext₁).extends (loadTools_good hg₁ infos).2
    · exact ih hg₁ hrest i hi

/-- The merges of tools are taken back in turn, the last one first. -/
theorem removeUi_loadTools (M : KeyedQueue.Allocator) (create : MooUserToolInfo → Option κ)
    (type : MooUserToolType) (hg : st.xml.Good) (infos : List MooUserToolInfo) :
    ∃ loaded, (loadTools M create type st infos).tools = loaded ++ st.tools ∧
      ∀ xml : MooUiXml, xml.ui = (loadTools M create type st infos).xml.ui →
        xml.mergedUi = (loadTools M create type st infos).xml.mergedUi →
        ∃ xml', loaded.foldlM (fun xml tool => removeUi xml tool.mergeId) xml = some xml' ∧
          xml'.ui = st.xml.ui ∧ xml'.mergedUi = st.xml.mergedUi ∧ xml'.data = xml.data := by
  induction infos generalizing st with
  | nil => exact ⟨[], rfl, fun xml hui hmerged => ⟨xml, rfl, hui, hmerged, rfl⟩⟩
  | cons info infos ih =>
    obtain ⟨hg₁, -, hstep⟩ := loadTool_step M create hg type info
    obtain ⟨loaded, htools, hback⟩ := ih hg₁
    obtain hsame | ⟨htool, hundo⟩ := hstep
    · rw [hsame] at htools hback
      refine ⟨loaded, ?_, ?_⟩
      · simpa [loadTools, hsame] using htools
      · simpa [loadTools, hsame] using hback
    · refine ⟨loaded ++ [⟨info.id, st.xml.newMergeId.lastMergeId⟩], ?_, fun xml hui hmerged => ?_⟩
      · rw [List.append_assoc, List.singleton_append, ← htool]
        exact htools
      · obtain ⟨xml₁, hrun, hui₁, hmerged₁, hdata₁⟩ := hback xml hui hmerged
        obtain ⟨xml₂, hlast, hui₂, hmerged₂, hdata₂⟩ := hg.removeUi_undo hg₁ hundo hui₁ hmerged₁
        refine ⟨xml₂, ?_, hui₂, hmerged₂, hdata₂.trans hdata₁⟩
        rw [List.foldlM_append, hrun]
        simpa using hlast

/-- Tools are loaded into any description. Each item comes to its place if and only if, whenever a
tool is loaded, its path is there or nothing of it is; then all items are there in the end. When the
tools are unloaded the description is what it was before. -/
theorem loadTools_right {root : ℕ} (h : Reached M root st.xml) (hnone : st.tools = [])
    (hload : ∀ info ∈ infos, Loadable create info) :
    let st₁ := loadTools M create .menu st infos
    (AllPlaced M create st infos ↔ AllFit M create st infos) ∧
    (AllFit M create st infos → ∀ info ∈ infos, HasItem st₁.xml info) ∧
    ∃ st₂, unloadUserTools st₁ = some st₂ ∧ st₂.tools = [] ∧ st₂.xml.ui = st.xml.ui ∧
      st₂.xml.mergedUi = st.xml.mergedUi ∧
      ∀ y ∈ st.xml.ui.nodes, st₂.xml.data y = st.xml.data y := by
  have hg := h.good
  have hiff := allPlaced_iff (M := M) hg hload
  refine ⟨hiff, fun hfit => (hiff.2 hfit).hasItem hg, ?_⟩
  obtain ⟨loaded, htools, hback⟩ := removeUi_loadTools M create .menu hg infos
  obtain ⟨xml', hrun, hui, hmerged, hdata⟩ := hback _ rfl rfl
  rw [hnone, List.append_nil] at htools
  refine ⟨_, by rw [unloadUserTools, htools, hrun]; rfl, rfl, hui, hmerged, fun y hy => ?_⟩
  rw [hdata]
  exact (loadTools_good hg infos).2.data y hy

/-- A description with a placeholder for tools. -/
def toolsUi : Markup :=
  let element (tag name : String) (kids : Markup) : Markup :=
    .element tag [("name", ascii name.toList)] kids .nil
  element "object" "Editor" <| element "widget" "Menubar" <| element "item" "Tools" <|
    element "placeholder" "UserMenu" .nil

/-- No tools are loaded yet. -/
def noTools : ToolStore Unit :=
  ⟨(MooUiXml.init 0).addUiFromString .above (some toolsUi), [], fun _ => none⟩

def toolNamed (id name : String) : MooUserToolInfo :=
  { infoNew (ascii id.toList) with name := some (ascii name.toList) }

/-- Two tools in one submenu. -/
theorem loadTools_right_shared :
    AllPlaced .above (fun _ => some ()) noTools [toolNamed "x" "A/x", toolNamed "y" "A/y"] := by
  have hreached : Reached .above 0 noTools.xml :=
    Reached.init.step (c := .addUiFromString (some toolsUi)) rfl
  have hload : ∀ info ∈ [toolNamed "x" "A/x", toolNamed "y" "A/y"],
      Loadable (fun _ => some ()) info := by
    intro info hinfo
    obtain rfl | rfl : info = toolNamed "x" "A/x" ∨ info = toolNamed "y" "A/y" := by
      simpa using hinfo
    · exact ⟨by decide, rfl, rfl⟩
    · exact ⟨by decide, rfl, rfl⟩
  refine (loadTools_right hreached rfl hload).1.2
    ⟨⟨8, by decide, ?_⟩, ⟨8, by decide, ?_⟩, trivial⟩
  · rw [show noTools.xml.getChildOf 8 (submenus (toolNamed "x" "A/x")) = none by decide]
    exact ⟨by decide, by decide⟩
  · have hpath : (loadTool .above (fun _ => some ()) .menu noTools
        (toolNamed "x" "A/x")).xml.getChildOf 8 (submenus (toolNamed "y" "A/y")) = some 16 := by
      decide
    rw [hpath]
    decide

/-- The path of the second tool goes on where the first one ends: its submenu is made below a second
`A`, and its item is not put there. -/
theorem loadTools_right_nested :
    (∀ info ∈ [toolNamed "x" "A/x", toolNamed "y" "A/B/y"],
      Loadable (fun _ => some ()) info ∧ (noTools.xml.getNode (userMenu info)).isSome) ∧
    ¬ AllPlaced .above (fun _ => some ()) noTools [toolNamed "x" "A/x", toolNamed "y" "A/B/y"] := by
  refine ⟨fun info hinfo => ?_, ?_⟩
  · obtain rfl | rfl : info = toolNamed "x" "A/x" ∨ info = toolNamed "y" "A/B/y" := by
      simpa using hinfo
    · exact ⟨⟨by decide, rfl, rfl⟩, by decide⟩
    · exact ⟨⟨by decide, rfl, rfl⟩, by decide⟩
  · rintro ⟨-, ⟨ph, hph, parent, -, -, hparent, -⟩, -⟩
    obtain rfl : 8 = ph := Option.some.inj (Eq.trans (by decide) hph)
    have hnone : (loadTools .above (fun _ => some ()) .menu noTools
        [toolNamed "x" "A/x", toolNamed "y" "A/B/y"]).xml.getChildOf 8
          (submenus (toolNamed "y" "A/B/y")) = none := by decide
    exact absurd (hnone.symm.trans hparent) (by simp)

end Runs

end UserTools

end Medit
