import Mathlib.Data.List.Induction
import Mathlib.Data.List.Sort
import Medit.Library.CString
import Medit.Library.KeyedQueue

/-!
# Lists of user tools

Translation of the lists of tools in `plugins/usertools/moousertools.cpp`: tools are defined in files
of the system, in the file of the user and in directories, and a later definition of a tool replaces
an earlier one, removes it, or moves it. The tools of the files have been parsed, and so has what
stands in a file of a directory.

## Main definitions

* `addInfo` — one more definition in a list of links with a table of ids.
* `loadFile`, `parseUserTools` — a tool from a file of a directory, and all tools.
* `override` — what one more definition means.

## Main results

* `tools_right` — the tools are what the definitions mean in their order, and the id of a file is its
  name without prefix and extension when it has no extension.
-/

namespace Medit

open CString

abbrev ToolString := List UInt8

/-- `MOO_USER_TOOL_POS_END` and `MOO_USER_TOOL_POS_START` -/
inductive MooUserToolPosition
  | atEnd | atStart
deriving DecidableEq

/-- The code of a command, and the values of the keys of its factory. -/
structure MooCommandData where
  data : List (Option ToolString)
  code : Option ToolString
deriving DecidableEq

structure MooUserToolInfo where
  id : ToolString
  name : Option ToolString
  accel : Option ToolString
  menu : Option ToolString
  filter : Option ToolString
  options : Option ToolString
  position : MooUserToolPosition
  cmdData : Option MooCommandData
  enabled : Bool
  deleted : Bool
  builtin : Bool
deriving DecidableEq

namespace UserTools

/-- `_moo_user_tool_info_new`, with an id. -/
def infoNew (id : ToolString) : MooUserToolInfo :=
  ⟨id, none, none, none, none, none, .atEnd, none, true, false, false⟩

instance : Inhabited MooUserToolInfo := ⟨infoNew []⟩

/-! ## Definitions in order -/

/-- The links of the list with their infos, the table from ids to links, and how many links have been
made. -/
structure ToolLinks where
  queue : KeyedQueue ToolString MooUserToolInfo
  made : ℕ

def ToolLinks.new : ToolLinks := ⟨.empty, 0⟩

/-- `add_info` -/
def addInfo (alloc : KeyedQueue.Allocator) (list : ToolLinks) (info : MooUserToolInfo) : ToolLinks :=
  let oldLink := list.queue.table info.id
  let oldInfo := oldLink.map list.queue.data
  let queue :=
    match oldLink with
    | none => list.queue
    | some link => (list.queue.remove info.id).unlink link
  let added :=
    if info.deleted then none
    else if info.builtin then oldInfo
    else some info
  match added with
  | none => { list with queue := queue }
  | some info =>
    let link := alloc.get list.made queue.links
    ⟨(queue.pushHead link info).insert info.id link, list.made + 1⟩

/-! ## Files of directories -/

/-- `NAME_PREFIX_LEN` -/
def namePrefixLen : ℕ := 3

/-- `SCRIPT_EXTENSION`, of the only factory that is registered. -/
def scriptExtension : ToolString := ascii ".sh".toList

/-- A file in a directory of tools, with what `_moo_command_parse_file` makes of it. -/
structure ToolFile where
  basename : ToolString
  noNul : 0 ∉ basename
  parsed : Option (MooCommandData × List (ToolString × ToolString))
deriving DecidableEq

/-- `KEY_ID` -/
def keyId : ToolString := ascii "id".toList

/-- One round of `parse_params`. -/
def parseParam (info : MooUserToolInfo) (param : ToolString × ToolString) : MooUserToolInfo :=
  let (key, value) := param
  if key = ascii "position".toList then
    if strcaseEq value (ascii "end".toList) then { info with position := .atEnd }
    else if strcaseEq value (ascii "start".toList) then { info with position := .atStart }
    else info
  else if key = keyId then { info with id := value }
  else if key = ascii "name".toList then { info with name := some value }
  else if key = ascii "accel".toList then { info with accel := some value }
  else if key = ascii "menu".toList then { info with menu := some value }
  else if key = ascii "langs".toList then
    { info with filter := some (ascii "langs: ".toList ++ value) }
  else if key = ascii "file-filter".toList then { info with filter := some value }
  else if key = ascii "options".toList then { info with options := some value }
  else info

/-- The length of the extension that `load_file` takes off. -/
def suffixLen (basename : ToolString) : ℕ :=
  if scriptExtension <:+ basename then scriptExtension.length else 0

/-- The id that `load_file` cuts out of the name. -/
def basenameId (basename : ToolString) : ToolString :=
  strndup (basename.drop namePrefixLen) (basename.drop (namePrefixLen - suffixLen basename)).length
    |>.takeWhile (· ≠ 0)

/-- `load_file`, up to `add_info`. -/
def loadFile (file : ToolFile) : Option MooUserToolInfo :=
  file.parsed.map fun (cmdData, params) =>
    let id := basenameId file.basename
    params.foldl parseParam
      { infoNew id with name := some id, cmdData := some cmdData }

/-- The files of `load_directory`, in the order of their names. -/
def directoryFiles (files : List ToolFile) : List ToolFile :=
  (files.filter (namePrefixLen < ·.basename.length)).insertionSort
    fun f g => strcmp f.basename g.basename ≤ 0

/-! ## All definitions -/

/-- What is read, in its order: the files of the system, the one of the user, and the directories,
the last one first. -/
def definitions (sysFiles : List (List MooUserToolInfo)) (userFile : List MooUserToolInfo)
    (dirs : List (List ToolFile)) : List MooUserToolInfo :=
  sysFiles.flatten ++ userFile ++ dirs.reverse.flatMap fun dir => (directoryFiles dir).filterMap loadFile

/-- `parse_user_tools`: the links, before the list is reversed. -/
def parseLinks (alloc : KeyedQueue.Allocator) (sysFiles : List (List MooUserToolInfo))
    (userFile : List MooUserToolInfo) (dirs : List (List ToolFile)) (sysOnly all : Bool) : ToolLinks :=
  (definitions sysFiles (if sysOnly then [] else userFile) (if all then dirs else [])).foldl
    (addInfo alloc) .new

/-- `parse_user_tools` -/
def parseUserTools (alloc : KeyedQueue.Allocator) (sysFiles : List (List MooUserToolInfo))
    (userFile : List MooUserToolInfo) (dirs : List (List ToolFile)) (sysOnly all : Bool) :
    List MooUserToolInfo :=
  (parseLinks alloc sysFiles userFile dirs sysOnly all).queue.items.reverse

/-! ## What definitions mean -/

/-- One more definition: it goes last in place of an earlier one, a deleted mark removes that, and a
builtin mark moves it to the end. -/
def override (tools : List MooUserToolInfo) (info : MooUserToolInfo) : List MooUserToolInfo :=
  let rest := tools.filter (·.id ≠ info.id)
  if info.deleted then rest
  else if info.builtin then rest ++ tools.filter (·.id = info.id)
  else rest ++ [info]

/-- The list and its table, and the tools in the list. -/
structure Holds (list : ToolLinks) (tools : List MooUserToolInfo) : Prop where
  indexed : list.queue.Indexed (·.id)
  items : list.queue.items.reverse = tools

theorem Holds.nodup {list : ToolLinks} {tools : List MooUserToolInfo} (h : Holds list tools) :
    (tools.map (·.id)).Nodup := by
  rw [← h.items, List.map_reverse, List.nodup_reverse]
  exact h.indexed.nodup_keys

/-- An info goes to the head of a list without its id. -/
theorem Holds.push {list : ToolLinks} {tools : List MooUserToolInfo} (h : Holds list tools)
    (alloc : KeyedQueue.Allocator) {info : MooUserToolInfo} (hid : list.queue.table info.id = none)
    (n m : ℕ) :
    let link := alloc.get n list.queue.links
    Holds ⟨(list.queue.pushHead link info).insert info.id link, m⟩ (tools ++ [info]) := by
  have hlink := alloc.fresh n list.queue.links
  refine ⟨h.indexed.pushHead hlink hid, ?_⟩
  rw [KeyedQueue.Indexed.items_pushHead hlink, List.reverse_cons, h.items]

theorem Holds.addInfo {list : ToolLinks} {tools : List MooUserToolInfo} (h : Holds list tools)
    (alloc : KeyedQueue.Allocator) (info : MooUserToolInfo) :
    Holds (addInfo alloc list info) (override tools info) := by
  unfold UserTools.addInfo override
  cases hold : list.queue.table info.id with
  | none =>
    have hids : ∀ t ∈ tools, t.id ≠ info.id := fun t ht heq => by
      refine h.indexed.table_eq_none.1 hold (heq ▸ List.mem_map_of_mem ?_)
      rwa [← h.items, List.mem_reverse] at ht
    have hrest : tools.filter (·.id ≠ info.id) = tools := by simpa using hids
    have hnone : tools.filter (·.id = info.id) = [] := by simpa using hids
    simp only [hrest, hnone, Option.map_none, List.append_nil]
    by_cases hdeleted : info.deleted
    · simpa [hdeleted] using h
    · by_cases hbuiltin : info.builtin
      · simpa [hdeleted, hbuiltin] using h
      · simpa [hdeleted, hbuiltin] using h.push alloc hold list.made _
  | some link =>
    obtain ⟨hlink, hid⟩ := (h.indexed.table_iff _ _).1 hold
    have hrest : Holds ⟨(list.queue.remove info.id).unlink link, list.made⟩
        (tools.filter (·.id ≠ info.id)) := by
      refine ⟨h.indexed.remove hold, ?_⟩
      rw [h.indexed.items_remove hold, ← h.items, List.filter_reverse]
    have hfree : ((list.queue.remove info.id).unlink link).table info.id = none := by
      simp [KeyedQueue.unlink, KeyedQueue.remove]
    -- the earlier definition is the only one of its id
    have hone : tools.filter (·.id = info.id) = [list.queue.data link] := by
      have hmem : list.queue.data link ∈ tools := by
        rw [← h.items, List.mem_reverse]
        exact List.mem_map_of_mem hlink
      simpa only [hid] using KeyedQueue.filter_key_eq h.nodup hmem
    simp only [hone, Option.map_some]
    by_cases hdeleted : info.deleted
    · simpa [hdeleted] using hrest
    · by_cases hbuiltin : info.builtin
      · have hearlier : ((list.queue.remove info.id).unlink link).table
            (list.queue.data link).id = none := hid ▸ hfree
        have hmoved := hrest.push alloc hearlier list.made (list.made + 1)
        simpa [hdeleted, hbuiltin, hid] using hmoved
      · simpa [hdeleted, hbuiltin] using hrest.push alloc hfree list.made (list.made + 1)

theorem Holds.foldl {list : ToolLinks} {tools : List MooUserToolInfo} (h : Holds list tools)
    (alloc : KeyedQueue.Allocator) (infos : List MooUserToolInfo) :
    Holds (infos.foldl (UserTools.addInfo alloc) list) (infos.foldl override tools) := by
  induction infos generalizing list tools with
  | nil => exact h
  | cons info infos ih => exact ih (h.addInfo alloc info)

theorem Holds.new : Holds .new [] := ⟨.empty, rfl⟩

/-! ## Ids of files -/

/-- The id that the params of a file give. -/
def ToolFile.idParam (file : ToolFile) : Option ToolString :=
  file.parsed.bind fun (_, params) =>
    (params.filter (·.1 = keyId)).getLast?.map (·.2)

/-- The name without the prefix and the extension. -/
def stripName (basename : ToolString) : ToolString :=
  (basename.take (basename.length - suffixLen basename)).drop namePrefixLen

/-- The id that is meant: the one the file gives, and else its name without prefix and extension. -/
def ToolFile.meantId (file : ToolFile) : ToolString := file.idParam.getD (stripName file.basename)

/-- The whole rest of the name is the id, as what is measured is longer than the rest. -/
theorem basenameId_eq {basename : ToolString} (h : 0 ∉ basename) :
    basenameId basename = basename.drop namePrefixLen := by
  have hall : ∀ c ∈ basename.drop namePrefixLen, (c ≠ 0 : Bool) = true := fun c hc => by
    have hne : c ≠ 0 := fun heq => h (heq ▸ List.mem_of_mem_drop hc)
    simpa using hne
  have hle : (basename.drop namePrefixLen).length ≤
      (basename.drop (namePrefixLen - suffixLen basename)).length := by
    simp only [List.length_drop]
    omega
  have hcopied : (basename.drop namePrefixLen).takeWhile (· ≠ 0) = basename.drop namePrefixLen :=
    List.takeWhile_eq_self_iff.2 hall
  rw [basenameId, strndup, List.take_of_length_le hle, hcopied,
    List.takeWhile_append_of_pos hall]
  simp

theorem parseParam_id (info : MooUserToolInfo) (key value : ToolString) :
    (parseParam info (key, value)).id = if key = keyId then value else info.id := by
  have hposition : ascii "position".toList ≠ keyId := by decide
  simp only [parseParam]
  split_ifs <;> grind

/-- The id after the params. -/
theorem id_foldl_parseParam (params : List (ToolString × ToolString)) (info : MooUserToolInfo) :
    (params.foldl parseParam info).id =
      ((params.filter (·.1 = keyId)).getLast?.map (·.2)).getD info.id := by
  induction params using List.reverseRecOn with
  | nil => rfl
  | append_singleton params param ih =>
    obtain ⟨key, value⟩ := param
    rw [List.foldl_append, List.filter_append, List.foldl_cons, List.foldl_nil, parseParam_id]
    by_cases hkey : key = keyId
    · simp [hkey]
    · simp [hkey, ih]

theorem loadFile_id {file : ToolFile} {info : MooUserToolInfo} (h : loadFile file = some info) :
    info.id = file.idParam.getD (file.basename.drop namePrefixLen) := by
  obtain ⟨⟨cmdData, params⟩, hparsed, rfl⟩ := Option.map_eq_some_iff.1 h
  simp only [id_foldl_parseParam, ToolFile.idParam, hparsed, Option.bind_some]
  rw [← basenameId_eq file.noNul]
  rfl

/-- The extension stays in the id. -/
theorem stripName_eq_iff {basename : ToolString} (h : namePrefixLen < basename.length) :
    basename.drop namePrefixLen = stripName basename ↔ ¬ scriptExtension <:+ basename := by
  constructor
  · intro heq hsuffix
    have hlen := congrArg List.length heq
    have hext : scriptExtension.length = 3 := by decide
    simp only [stripName, suffixLen, if_pos hsuffix, hext, namePrefixLen, List.length_drop,
      List.length_take] at hlen h
    omega
  · intro hno
    simp [stripName, suffixLen, hno]

/-! ## Main results -/

/-- The tools are those that the definitions mean in their order, each id once. A file of a directory
that does not name its id gets its name without prefix and extension if it has no extension, and only
then. -/
theorem tools_right (alloc : KeyedQueue.Allocator) (sysFiles : List (List MooUserToolInfo))
    (userFile : List MooUserToolInfo) (dirs : List (List ToolFile)) (sysOnly all : Bool) :
    ((parseUserTools alloc sysFiles userFile dirs sysOnly all).map (·.id)).Nodup ∧
      parseUserTools alloc sysFiles userFile dirs sysOnly all =
        (definitions sysFiles (if sysOnly then [] else userFile)
          (if all then dirs else [])).foldl override [] ∧
      ∀ dir ∈ dirs, ∀ file ∈ directoryFiles dir, ∀ info, loadFile file = some info →
        (info.id = file.meantId ↔ file.idParam.isSome ∨ ¬ scriptExtension <:+ file.basename) := by
  have hholds := Holds.new.foldl alloc
    (definitions sysFiles (if sysOnly then [] else userFile) (if all then dirs else []))
  have htools : parseUserTools alloc sysFiles userFile dirs sysOnly all = _ := hholds.items
  refine ⟨htools ▸ hholds.nodup, htools, fun dir _ file hfile info hinfo => ?_⟩
  have hlen : namePrefixLen < file.basename.length := by
    have hmem := (List.mem_insertionSort _).1 hfile
    simpa using (List.mem_filter.1 hmem).2
  rw [loadFile_id hinfo, ToolFile.meantId, ← stripName_eq_iff hlen]
  cases file.idParam <;> simp

/-- A script of a directory, and a script that names its id. -/
def scripts : List ToolFile :=
  [⟨ascii "02-sort.sh".toList, by decide, some (⟨[], none⟩, [])⟩,
    ⟨ascii "01-tac".toList, by decide, some (⟨[], none⟩, [])⟩]

/-- A file without extension gets its name without prefix. -/
theorem tools_right_tac :
    ∀ info, loadFile ⟨ascii "01-tac".toList, by decide, some (⟨[], none⟩, [])⟩ = some info →
      info.id = ascii "tac".toList := by
  intro info hinfo
  have hright := (tools_right .above [] [] [scripts] false true).2.2 scripts (by simp)
    ⟨ascii "01-tac".toList, by decide, some (⟨[], none⟩, [])⟩ (by decide) info hinfo
  exact hright.2 (.inr (by decide))

/-- A script keeps its extension in its id, so that it does not replace the tool `sort`. -/
theorem tools_wrong :
    (parseUserTools .above [[infoNew (ascii "sort".toList)]] [] [scripts] false true).map (·.id) =
      [ascii "sort".toList, ascii "tac".toList, ascii "sort.sh".toList] ∧
      stripName (ascii "02-sort.sh".toList) = ascii "sort".toList := by
  decide

end UserTools

end Medit
