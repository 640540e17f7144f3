import Medit.History.File

/-!
# Two lists of recent files

Two instances each of which tells the other one of its changes. A message is carried out by another
operation than the change it tells of, on an item that has been written and read.

## Main definitions

* `HistoryItem.carried` — an item as it is in a message.
* `HistoryPair.step` — an operation of one instance, with the messages that follow.
* `HistoryPair.Agree` — the lists have the same items, and there is no message left.

## Main results

* `parseUpdateItem_formatForUpdate` — what is read of a message.
* `HistoryPair.lists_agree` — the lists stay the same when no item is changed in a message.
-/

namespace Medit

open Recent (uris)

/-! ## Messages -/

namespace HistoryItem

theorem nodup_filter {data : List (List UInt8 × List UInt8)} (h : (data.map Prod.fst).Nodup)
    (p : List UInt8 × List UInt8 → Bool) : ((data.filter p).map Prod.fst).Nodup :=
  h.sublist (List.filter_sublist.map _)

/-- An item as it is read of a message, without data whose key or value is empty. -/
def carried (item : HistoryItem) : HistoryItem where
  uri := item.uri
  data := item.data.filter fun p => p.1 ≠ [] ∧ p.2 ≠ []
  nodup := nodup_filter item.nodup _

/-- No key and no value of an item is empty. -/
def Plain (item : HistoryItem) : Prop := ∀ p ∈ item.data, p.1 ≠ [] ∧ p.2 ≠ []

theorem same_carried_iff {item : HistoryItem} : item.carried.Same item ↔ item.Plain := by
  constructor
  · intro hsame p hp
    have hget : item.get p.1 = some p.2 := item.get_eq_some.2 hp
    rw [← hsame.2, get_eq_some] at hget
    simpa using (List.mem_filter.1 hget).2
  · intro hplain
    have heq : item.carried = item :=
      ext_data rfl (List.filter_eq_self.2 fun p hp => by simpa using hplain p hp)
    rw [heq]
    exact .refl _

end HistoryItem

theorem Markup.elements_append (m n : Markup) : (m.append n).elements = m.elements ++ n.elements := by
  induction m with
  | nil => rfl
  | element name attrs children next _ ih => simp [Markup.append, Markup.elements, ih]
  | text content next ih => simpa [Markup.append, Markup.elements] using ih

theorem Markup.elements_foldr {α : Type*} (f : α → Markup) (l : List α) (m : Markup) :
    (l.foldr (fun a m => (f a).append m) m).elements =
      l.flatMap (fun a => (f a).elements) ++ m.elements := by
  induction l with
  | nil => rfl
  | cons a l ih => simp [Markup.elements_append, ih]

/-- Texts are not looked at. -/
theorem parseElement_strip (e : Markup.Element) :
    parseElement { e with children := e.children.strip } = parseElement e := by
  simp only [parseElement, getProp, Markup.elements_strip, List.foldl_map]

theorem parseUpdateItem_strip (xml : Markup) : parseUpdateItem xml.strip = parseUpdateItem xml := by
  have hfind : xml.strip.elements.find? (·.name = "md-recent-files-update") =
      (xml.elements.find? (·.name = "md-recent-files-update")).map
        fun e => { e with children := e.children.strip } := by
    rw [Markup.elements_strip, List.find?_map]
    rfl
  rw [parseUpdateItem, parseUpdateItem, hfind]
  cases xml.elements.find? (·.name = "md-recent-files-update") with
  | none => rfl
  | some root =>
    simp only [Option.map_some, getProp, Markup.elements_strip]
    cases root.children.elements with
    | nil => rfl
    | cons child rest =>
      simp only [List.map_cons, parseElement_strip]
      rfl

/-- Data that are put into an item unless the key or the value is empty. -/
theorem foldl_carried (item : HistoryItem) : item.data.foldl
    (fun item p => if p.1 = [] ∨ p.2 = [] then item else item.set p.1 p.2)
      (HistoryItem.new item.uri) = item.carried := by
  have hfilter : item.data.foldl
      (fun item p => if p.1 = [] ∨ p.2 = [] then item else item.set p.1 p.2)
        (HistoryItem.new item.uri) = item.carried.data.foldl (fun item p => item.set p.1 p.2)
          (HistoryItem.new item.uri) := by
    rw [HistoryItem.carried, List.foldl_filter]
    refine List.foldl_ext _ _ _ fun item p _ => ?_
    by_cases hp : p.1 = [] ∨ p.2 = []
    · have hdrop : ¬ (p.1 ≠ [] ∧ p.2 ≠ []) := by tauto
      simp only [hp, hdrop, decide_false, Bool.false_eq_true, if_true, if_false]
    · have hkeep : p.1 ≠ [] ∧ p.2 ≠ [] := by tauto
      rw [if_neg hp, if_pos (by simpa using hkeep)]
  have hcopy := item.carried.copy_eq
  rw [hfilter]
  exact hcopy

/-- An item is read of a message. -/
theorem parseElement_format (item : HistoryItem) :
    ∃ elm, item.format.elements = [elm] ∧ parseElement elm = some item.carried := by
  have huri : [("uri", item.uri)].lookup "uri" = some item.uri := rfl
  unfold HistoryItem.format
  split_ifs with hdata
  · refine ⟨_, rfl, ?_⟩
    have hcarried : item.carried = HistoryItem.new item.uri :=
      HistoryItem.ext_data rfl (by simp [HistoryItem.carried, HistoryItem.new, hdata])
    simp [parseElement, getProp, huri, Markup.elements, hcarried]
  · refine ⟨_, rfl, ?_⟩
    have helements : (Markup.text (CString.ascii "\n".toList)
        (item.data.foldr (fun p m => (HistoryItem.formatData p).append m)
          (.text (CString.ascii "  ".toList) .nil))).elements =
        item.data.map fun p => ⟨"data", [("key", p.1), ("value", p.2)], .nil⟩ := by
      rw [Markup.elements, Markup.elements_foldr, List.map_eq_flatMap]
      simp [HistoryItem.formatData, Markup.elements]
    have hkey (p : List UInt8 × List UInt8) : [("key", p.1), ("value", p.2)].lookup "key" = some p.1 :=
      rfl
    have hvalue (p : List UInt8 × List UInt8) :
        [("key", p.1), ("value", p.2)].lookup "value" = some p.2 := rfl
    simp only [parseElement, getProp, huri, helements, List.foldl_map, hkey, hvalue, ne_eq,
      not_true_eq_false, if_false, foldl_carried]

/-- What is read of a message. -/
theorem parseUpdateItem_formatForUpdate (item : HistoryItem) {type : UpdateType} (h : type ≠ .clear) :
    parseUpdateItem (Markup.ofEvents (formatForUpdate (some item) type).events) =
      some (some item.carried, type) := by
  obtain ⟨elm, helements, hparse⟩ := parseElement_format item
  rw [← parseUpdateItem_strip, Markup.strip_ofEvents, parseUpdateItem_strip]
  have hchildren : (Markup.text (CString.ascii "\n".toList) item.format).elements = [elm] := helements
  have hname : UpdateType.ofName type.name = some type := by
    cases type <;> decide
  have hversion : [("version", historyVersion), ("type", type.name)].lookup "version" =
      some historyVersion := rfl
  have htype : [("version", historyVersion), ("type", type.name)].lookup "type" = some type.name := rfl
  have hroot : (formatForUpdate (some item) type).elements =
      [⟨"md-recent-files-update", [("version", historyVersion), ("type", type.name)],
        .text (CString.ascii "\n".toList) item.format⟩] := rfl
  simp only [parseUpdateItem, hroot, List.find?_cons, decide_true, getProp, hversion, ne_eq,
    not_true_eq_false, if_false, htype, Option.bind_some, hname, hchildren, hparse]
  cases type with
  | clear => exact absurd rfl h
  | _ => rfl

/-! ## Two instances -/

/-- The operations of an instance. -/
inductive HistoryOp
  | add (item : HistoryItem)
  | update (item : HistoryItem)
  | remove (uri : List UInt8)

/-- `moo_history_mgr_add_file`, `moo_history_mgr_update_file` or `moo_history_mgr_remove_uri` -/
def HistoryMgr.apply (mem : KeyedQueue.Allocator) (mgr : HistoryMgr) : HistoryOp → HistoryMgr
  | .add item => mgr.addFileReal mem item true
  | .update item => mgr.updateFileReal mem item true
  | .remove uri => mgr.removeUriReal mem uri true

/-- Messages come one after another. -/
def HistoryMgr.deliver (mem : KeyedQueue.Allocator) (mgr : HistoryMgr) (msgs : List Markup) :
    HistoryMgr :=
  msgs.foldl (fun mgr m => mgr.ipcCallback mem (some (Markup.ofEvents m.events))) mgr

/-- Two instances, each with its memory. -/
abbrev HistoryPair := Bool → HistoryMgr

namespace HistoryPair

variable (mem : Bool → KeyedQueue.Allocator)

/-- An operation of one instance; its messages are delivered to the other one, and what that one
sends is delivered back. -/
def step (s : HistoryPair) (e : Bool × HistoryOp) : HistoryPair :=
  let (i, op) := e
  let mgr := (s i).apply (mem i) op
  let other := (s !i).deliver (mem !i) mgr.sent
  let mgr := { mgr with sent := [] }.deliver (mem i) other.sent
  fun j => if j = i then mgr else { other with sent := [] }

/-- An instance that has loaded its file and is called by the name under which messages are sent. -/
structure Ready (mgr : HistoryMgr) : Prop where
  indexed : mgr.files.Indexed HistoryItem.uri
  loaded : mgr.loaded = true
  named : mgr.named = true
  sent : mgr.sent = []

/-- The lists have the same items, and there is no message left. -/
structure Agree (s : HistoryPair) : Prop where
  ready : ∀ i, Ready (s i)
  same : ∀ i j, Recent.Same (s i).items (s j).items

/-- An operation on an item that is the same in a message, or of which there is none. -/
def Allowed (s : HistoryPair) : Bool × HistoryOp → Prop
  | (i, .add item) => item.Plain ∨ HistoryMgr.Placed item (s i).items
  | (i, .update item) => item.Plain ∨ HistoryMgr.Listed item (s i).items
  | (_, .remove _) => True

/-! ## Messages -/

open HistoryMgr

variable {mem} {mgr mgr' : HistoryMgr} {l : List HistoryItem}
  {msgs : List (Option HistoryItem × UpdateType)}

@[simp] theorem deliver_nil (m : KeyedQueue.Allocator) : mgr.deliver m [] = mgr := rfl

theorem deliver_add (m : KeyedQueue.Allocator) (hl : mgr.loaded = true) (item : HistoryItem)
    (rest : List Markup) : mgr.deliver m (formatForUpdate (some item) .add :: rest) =
      (mgr.addFileReal m item.carried false).deliver m rest := by
  rw [deliver, List.foldl_cons, ipcCallback, ensureFiles_of_loaded m hl, Option.bind_some,
    parseUpdateItem_formatForUpdate item (by simp)]
  rfl

theorem deliver_update (m : KeyedQueue.Allocator) (hl : mgr.loaded = true) (item : HistoryItem)
    (rest : List Markup) : mgr.deliver m (formatForUpdate (some item) .update :: rest) =
      (mgr.updateFileReal m item.carried false).deliver m rest := by
  rw [deliver, List.foldl_cons, ipcCallback, ensureFiles_of_loaded m hl, Option.bind_some,
    parseUpdateItem_formatForUpdate item (by simp)]
  rfl

theorem deliver_remove (m : KeyedQueue.Allocator) (hl : mgr.loaded = true) (item : HistoryItem)
    (rest : List Markup) : mgr.deliver m (formatForUpdate (some item) .remove :: rest) =
      (mgr.removeUriReal m item.uri false).deliver m rest := by
  rw [deliver, List.foldl_cons, ipcCallback, ensureFiles_of_loaded m hl, Option.bind_some,
    parseUpdateItem_formatForUpdate item (by simp)]
  rfl

/-- A file that is not listed is removed. -/
theorem removeUriReal_of_notMem (m : KeyedQueue.Allocator) (hi : mgr.files.Indexed HistoryItem.uri)
    (hl : mgr.loaded = true) {uri : List UInt8} (h : uri ∉ uris mgr.items) (notify : Bool) :
    mgr.removeUriReal m uri notify = mgr := by
  rw [removeUriReal, ensureFiles_of_loaded m hl, hi.table_eq_none.2 h]

/-- Removals of files that are not listed. -/
theorem deliver_removals (m : KeyedQueue.Allocator) (hi : mgr.files.Indexed HistoryItem.uri)
    (hl : mgr.loaded = true) (items : List HistoryItem) (h : ∀ a ∈ items, a.uri ∉ uris mgr.items) :
    mgr.deliver m (items.map fun a => formatForUpdate (some a) .remove) = mgr := by
  induction items with
  | nil => rfl
  | cons a items ih =>
    rw [List.map_cons, deliver_remove m hl, removeUriReal_of_notMem m hi hl (h a (by simp)),
      ih fun b hb => h b (by simp [hb])]

/-- What an operation of a ready instance sends. -/
theorem Ready.sent_eq (h : Ready mgr) (hd : Does mgr mgr' l msgs) :
    mgr'.sent = msgs.map fun m => formatForUpdate m.1 m.2 := by
  rw [hd.sent, h.sent, if_pos h.named, List.nil_append]

theorem Ready.of_does (h : Ready mgr) (hd : Does mgr mgr' l msgs) :
    Ready { mgr' with sent := [] } :=
  ⟨hd.indexed, hd.loaded, hd.named.trans h.named, rfl⟩

/-! ## One operation -/

/-- An operation has been done on both sides when the messages that come back only tell of removals
that have been made. -/
theorem Agree.step_of {s : HistoryPair} (hs : s.Agree) {i : Bool} {op : HistoryOp}
    {l l' : List HistoryItem} {msgs : List (Option HistoryItem × UpdateType)}
    {removed : List HistoryItem} (hd : Does (s i) ((s i).apply (mem i) op) l msgs)
    (hother : Does (s !i) ((s !i).deliver (mem !i) ((s i).apply (mem i) op).sent) l'
      (removed.map fun a => (some a, .remove)))
    (hremoved : ∀ a ∈ removed, a.uri ∉ uris l) :
    (s.step mem (i, op)).Agree ↔ Recent.Same l l' := by
  have hready := hs.ready i
  have hready' := hs.ready !i
  have hsent := hready'.sent_eq hother
  rw [List.map_map] at hsent
  have hleft := hready.of_does hd
  have hright := hready'.of_does hother
  have hback : ({ (s i).apply (mem i) op with sent := [] } : HistoryMgr).deliver (mem i)
      ((s !i).deliver (mem !i) ((s i).apply (mem i) op).sent).sent =
        { (s i).apply (mem i) op with sent := [] } := by
    rw [hsent]
    refine deliver_removals _ hleft.indexed hleft.loaded _ fun a ha hmem => hremoved a ha ?_
    rw [← hd.items.uris_eq]
    exact hmem
  unfold step
  dsimp only
  rw [hback]
  constructor
  · intro hagree
    have hitems := hagree.same i !i
    rw [if_pos rfl, if_neg (by simp)] at hitems
    exact hd.items.symm.trans (hitems.trans hother.items)
  · intro hsame
    have hitems := hd.items.trans (hsame.trans hother.items.symm)
    constructor
    · intro j
      split_ifs
      · exact hleft
      · exact hright
    · intro j k
      split_ifs
      · exact .refl _
      · exact hitems
      · exact hitems.symm
      · exact .refl _

theorem length_cons_remove {l l' : List HistoryItem} (h : Recent.Same l l') {a b : HistoryItem}
    (hab : a.uri = b.uri) :
    (a :: Recent.remove a.uri l).length = (b :: Recent.remove b.uri l').length := by
  rw [hab, List.length_cons, List.length_cons, (h.remove b.uri).length_eq]

theorem notMem_of_remove {a : HistoryItem} {l l' : List HistoryItem}
    (h : Recent.Same (Recent.remove a.uri l) l') : a.uri ∉ uris l' := by
  rw [← h.uris_eq, Recent.uris_remove]
  simp

theorem same_add_iff {item item' : HistoryItem} {l l' : List HistoryItem} (h : Recent.Same l l') :
    Recent.Same (Recent.add item l) (Recent.add item' l') ↔ item.Same item' := by
  constructor
  · intro hsame
    have hhead := Recent.head?_add item l
    have hhead' := Recent.head?_add item' l'
    generalize Recent.add item l = m at hsame hhead
    generalize Recent.add item' l' = m' at hsame hhead'
    cases hsame with
    | nil => cases hhead
    | cons hab _ =>
      obtain rfl := Option.some.inj hhead
      obtain rfl := Option.some.inj hhead'
      exact hab
  · exact h.add

theorem same_replace_iff {item item' : HistoryItem} {l l' : List HistoryItem} (h : Recent.Same l l')
    (huri : item.uri = item'.uri) (hmem : item.uri ∈ uris l) :
    Recent.Same (Recent.replace item l) (Recent.replace item' l') ↔ item.Same item' := by
  refine ⟨fun hsame => ?_, h.replace⟩
  induction h with
  | nil => cases hmem
  | cons hab _ ih =>
    rename_i a b l₁ l₂ _
    rw [uris, List.map_cons, List.mem_cons] at hmem
    simp only [Recent.replace, List.map_cons, List.forall₂_cons] at hsame
    by_cases ha : a.uri = item.uri
    · have hb : b.uri = item'.uri := by rw [← hab.1, ha, huri]
      have hfirst := hsame.1
      rwa [if_pos ha, if_pos hb] at hfirst
    · exact ih (hmem.resolve_left fun h => ha h.symm) hsame.2

/-- A file is added by one instance. -/
theorem Agree.add_iff {s : HistoryPair} (hs : s.Agree) {i : Bool} {op : HistoryOp}
    {item : HistoryItem} (hop : (s i).apply (mem i) op = (s i).addFileReal (mem i) item true) :
    (s.step mem (i, op)).Agree ↔ item.Plain ∨ Placed item (s i).items := by
  classical
  have hready := hs.ready i
  have hready' := hs.ready !i
  obtain ⟨tail, htail, hdoes⟩ := does_addFileReal (mem i) hready.indexed hready.loaded item true
  have hsent := hready.sent_eq hdoes
  rw [← hop] at hdoes hsent
  by_cases hplaced : Placed item (s i).items
  -- the other instance is told of a removal at most
  · have hcons := (hs.same (!i) i).trans (hplaced.same_cons hready.indexed.nodup_keys)
    simp only [hplaced, or_true, iff_true]
    by_cases hlong : (item :: Recent.remove item.uri (s i).items).length > maxItemNumber
    · obtain ⟨gone, -, hother⟩ := does_removeUriReal (mem !i) hready'.indexed hready'.loaded tail.uri false
      have hsame := ((hcons.remove tail.uri).trans (htail hlong)).symm
      refine (@Agree.step_of _ _ hs _ _ _ _ _ [] hdoes ?_ (by simp)).2 hsame
      simp only [hplaced, hlong, not_true_eq_false, and_false, if_true, if_false, List.nil_append,
        List.map_cons, List.map_nil] at hsent
      rw [hsent, deliver_remove _ hready'.loaded]
      simpa using hother
    · have hsame : Recent.Same (Recent.add item (s i).items) (s !i).items := by
        rw [Recent.add, Recent.trim, if_neg hlong]
        exact hcons.symm
      refine (@Agree.step_of _ _ hs _ _ _ _ _ [] hdoes ?_ (by simp)).2 hsame
      simp only [hplaced, hlong, not_true_eq_false, and_false, if_false, List.append_nil,
        List.map_nil] at hsent
      rw [hsent]
      exact .refl hready'.indexed hready'.loaded
  -- the other instance adds the item that it has read
  · obtain ⟨tail', htail', hadd⟩ :=
      does_addFileReal (mem !i) hready'.indexed hready'.loaded item.carried false
    have huris : uris (Recent.add item (s i).items) = uris (Recent.add item.carried (s !i).items) :=
      Recent.uris_add (a := item) (b := item.carried) rfl (hs.same i !i).uris_eq
    have hlen := length_cons_remove (a := item) (b := item.carried) (hs.same i !i) rfl
    have hiff := @same_add_iff item item.carried _ _ (hs.same i !i)
    have hplain : item.Same item.carried ↔ item.Plain :=
      ⟨fun h => HistoryItem.same_carried_iff.1 h.symm,
        fun h => (HistoryItem.same_carried_iff.2 h).symm⟩
    simp only [hplaced, or_false]
    rw [← hplain, ← hiff]
    rw [← hlen] at htail' hadd
    by_cases hlong : (item :: Recent.remove item.uri (s i).items).length > maxItemNumber
    · have hgone : tail.uri ∉ uris ((s !i).addFileReal (mem !i) item.carried false).items := by
        rw [hadd.items.uris_eq, ← huris]
        exact notMem_of_remove (htail hlong)
      have hgone' : tail'.uri ∉ uris (Recent.add item (s i).items) := by
        rw [huris]
        exact notMem_of_remove (htail' hlong)
      refine @Agree.step_of _ _ hs _ _ _ _ _ [tail'] hdoes ?_ (by simpa using hgone')
      simp only [hplaced, hlong, not_false_eq_true, and_self, if_true, List.cons_append,
        List.nil_append, List.map_cons, List.map_nil] at hsent
      rw [hsent, deliver_add _ hready'.loaded, deliver_remove _ hadd.loaded,
        removeUriReal_of_notMem _ hadd.indexed hadd.loaded hgone]
      rw [if_pos hlong] at hadd
      simpa using hadd
    · refine @Agree.step_of _ _ hs _ _ _ _ _ [] hdoes ?_ (by simp)
      simp only [hplaced, hlong, not_false_eq_true, and_self, if_true, if_false, List.append_nil,
        List.map_cons, List.map_nil] at hsent
      rw [hsent, deliver_add _ hready'.loaded]
      rw [if_neg hlong] at hadd
      simpa using hadd

/-- A listed file is updated by one instance. -/
theorem Agree.update_iff {s : HistoryPair} (hs : s.Agree) {i : Bool} {item : HistoryItem}
    (hmem : item.uri ∈ uris (s i).items) :
    (s.step mem (i, .update item)).Agree ↔ item.Plain ∨ Listed item (s i).items := by
  classical
  have hready := hs.ready i
  have hready' := hs.ready !i
  have hdoes := does_updateFileReal (mem i) hready.indexed hready.loaded item true hmem
  have hsent := hready.sent_eq hdoes
  by_cases hlisted : Listed item (s i).items
  · have hsame := (hlisted.same_replace hready.indexed.nodup_keys).symm.trans (hs.same i !i)
    simp only [hlisted, or_true, iff_true]
    refine (@Agree.step_of _ _ hs _ _ _ _ _ [] hdoes ?_ (by simp)).2 hsame
    simp only [hlisted, not_true_eq_false, and_false, if_false, List.map_nil] at hsent
    rw [apply, hsent]
    exact .refl hready'.indexed hready'.loaded
  · have hmem' : item.carried.uri ∈ uris (s !i).items := by
      rw [← (hs.same i !i).uris_eq]
      exact hmem
    have hupdate := does_updateFileReal (mem !i) hready'.indexed hready'.loaded item.carried false hmem'
    have hiff := @same_replace_iff item item.carried _ _ (hs.same i !i) rfl hmem
    have hplain : item.Same item.carried ↔ item.Plain :=
      ⟨fun h => HistoryItem.same_carried_iff.1 h.symm,
        fun h => (HistoryItem.same_carried_iff.2 h).symm⟩
    simp only [hlisted, or_false]
    rw [← hplain, ← hiff]
    refine @Agree.step_of _ _ hs _ _ _ _ _ [] hdoes ?_ (by simp)
    simp only [hlisted, not_false_eq_true, and_self, if_true, List.map_cons, List.map_nil] at hsent
    rw [apply, hsent, deliver_update _ hready'.loaded]
    simpa using hupdate

theorem Agree.remove {s : HistoryPair} (hs : s.Agree) (i : Bool) (uri : List UInt8) :
    (s.step mem (i, .remove uri)).Agree := by
  have hready := hs.ready i
  have hready' := hs.ready !i
  obtain ⟨item, huri, hdoes⟩ := does_removeUriReal (mem i) hready.indexed hready.loaded uri true
  obtain ⟨item', -, hother⟩ := does_removeUriReal (mem !i) hready'.indexed hready'.loaded uri false
  have hsent := hready.sent_eq hdoes
  have hsame := (hs.same i !i).remove uri
  by_cases hmem : uri ∈ uris (s i).items
  · refine (@Agree.step_of _ _ hs _ _ _ _ _ [] hdoes ?_ (by simp)).2 hsame
    simp only [hmem, and_self, if_true, List.map_cons, List.map_nil] at hsent
    rw [apply, hsent, deliver_remove _ hready'.loaded, huri]
    simpa using hother
  · have hmem' : uri ∉ uris (s !i).items := by
      rwa [← (hs.same i !i).uris_eq]
    rw [Recent.remove_of_notMem hmem'] at hsame
    refine (@Agree.step_of _ _ hs _ _ _ _ _ [] hdoes ?_ (by simp)).2 hsame
    simp only [hmem, false_and, if_false, List.map_nil] at hsent
    rw [apply, hsent]
    exact .refl hready'.indexed hready'.loaded

/-- Lists that agree do so after an operation exactly when it is allowed. -/
theorem Agree.step_iff {s : HistoryPair} (hs : s.Agree) (e : Bool × HistoryOp) :
    (s.step mem e).Agree ↔ s.Allowed e := by
  obtain ⟨i, op⟩ := e
  cases op with
  | add item => exact hs.add_iff rfl
  | remove uri => exact ⟨fun _ => trivial, fun _ => hs.remove i uri⟩
  | update item =>
    by_cases hmem : item.uri ∈ uris (s i).items
    · exact hs.update_iff hmem
    · have hready := hs.ready i
      have hunlisted : ¬ Listed item (s i).items := by
        rintro ⟨b, hb, hsame⟩
        exact hmem (hsame.1 ▸ List.mem_map_of_mem hb)
      have hunplaced : ¬ Placed item (s i).items := by
        rintro ⟨b, hb, hsame⟩
        exact hmem (hsame.1 ▸ List.mem_map_of_mem (List.mem_of_mem_head? hb))
      have hop : (s i).apply (mem i) (.update item) = (s i).addFileReal (mem i) item true :=
        updateFileReal_of_notMem _ hready.indexed hready.loaded hmem true
      rw [hs.add_iff hop, Allowed]
      simp only [hunlisted, hunplaced]

/-! ## The file -/

/-- A list is loaded as it was saved when it has no empty key. -/
theorem saved_load_iff (hi : mgr.files.Indexed HistoryItem.uri) (m : KeyedQueue.Allocator)
    (named : Bool) : Recent.Same ((HistoryMgr.new named mgr.save.file).ensureFiles m).items mgr.items ↔
      ∀ item ∈ mgr.items, item.Keyed := by
  have hnew : (HistoryMgr.new named mgr.save.file).Inv := ⟨KeyedQueue.Indexed.empty, fun _ => rfl⟩
  have hload := (does_ensureFiles m hnew).items
  have hnodup := hi.nodup_keys
  have hlisted : (HistoryMgr.new named mgr.save.file).listed =
      mgr.items.takeWhile fun item => decide item.Keyed := by
    unfold listed HistoryMgr.new save
    by_cases hnil : mgr.files.links = []
    · simp [hnil, HistoryMgr.items, KeyedQueue.items]
    · rw [if_neg hnil]
      exact historyItems_savedEvents _
  have hsub : mgr.items.takeWhile (fun item => decide item.Keyed) <+: mgr.items :=
    List.takeWhile_prefix _
  have hfile : Recent.load (HistoryMgr.new named mgr.save.file).listed =
      mgr.items.takeWhile fun item => decide item.Keyed := by
    rw [hlisted]
    exact Recent.load_of_nodup (hnodup.sublist (hsub.sublist.map _))
  rw [if_neg (by simp [HistoryMgr.new]), hfile] at hload
  constructor
  · intro hsame
    have hlen := (hload.symm.trans hsame).length_eq
    have hall := hsub.eq_of_length hlen
    simpa using List.takeWhile_eq_self_iff.1 hall
  · intro hkeyed
    rw [List.takeWhile_eq_self_iff.2 (by simpa using hkeyed)] at hload
    exact hload

/-- Two lists stay the same when the items that are told of are the same in a message, and saving
and loading gives the list again when no key is empty. -/
theorem lists_agree (mem : Bool → KeyedQueue.Allocator) (start : HistoryPair) (h : start.Agree) :
    (∀ s, Machine.Reachable (step mem) Allowed start s → s.Agree) ∧
    (∀ s, Machine.Reachable (step mem) Allowed start s → ∀ e, (s.step mem e).Agree ↔ s.Allowed e) ∧
    ∀ s, Machine.Reachable (step mem) Allowed start s → ∀ i m named,
      (Recent.Same ((HistoryMgr.new named (s i).save.file).ensureFiles m).items (s i).items ↔
        ∀ item ∈ (s i).items, item.Keyed) := by
  have hreach {s} (hs : Machine.Reachable (step mem) Allowed start s) : s.Agree :=
    hs.invariant h fun s e he hs => (hs.step_iff e).2 he
  exact ⟨fun s hs => hreach hs, fun s hs e => (hreach hs).step_iff e,
    fun s hs i m named => saved_load_iff ((hreach hs).ready i).indexed m named⟩

/-- Two instances without recent files. -/
def fresh : HistoryPair := fun _ => { HistoryMgr.new true none with loaded := true }

theorem agree_fresh : fresh.Agree where
  ready _ := ⟨KeyedQueue.Indexed.empty, rfl, rfl, rfl⟩
  same _ _ := .nil

/-- A file with data. -/
def readme : HistoryItem := ⟨[102], [([108], [49])], by decide⟩

/-- A file with an encoding that is the empty string. -/
def unencoded : HistoryItem := ⟨[102], [([101], [])], by decide⟩

theorem lists_agree_readme : (fresh.step (fun _ => .above) (true, .add readme)).Agree := by
  have hallowed : fresh.Allowed (true, .add readme) := Or.inl (by simp [HistoryItem.Plain, readme])
  exact (lists_agree (fun _ => .above) fresh agree_fresh).1 _ (.step .start hallowed)

/-- An empty value is lost in a message. -/
theorem lists_differ : ¬ (fresh.step (fun _ => .above) (true, .add unencoded)).Agree := by
  rw [agree_fresh.step_iff]
  rintro (hplain | ⟨b, hb, -⟩)
  · exact (hplain ([101], []) (by simp [unencoded])).2 rfl
  · cases hb

end HistoryPair

end Medit
