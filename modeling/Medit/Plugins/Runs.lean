import Medit.Library.Bins
import Medit.Editor.Tabs
import Medit.Plugins.Attached

/-!
# What plugins are attached to in every run

Each enabled plugin is attached to every window and to every document in it, the others to
nothing, and each is told so in the right order.

## Main definitions

* `tabs` — the documents in the windows of an editor.
* `Plugin.Settled` — a plugin is attached to them all, or it is not enabled.
* `PluginStore.Good` — what every run keeps.

## Main results

* `PluginStore.Good.step` — no assertion fails, and the store stays good.
* `PluginStore.Run.attachments_follow` — what plugins are attached to and what they were told.
-/

namespace Medit.Plugins

open Attachments Editor

variable {F N : Type} {e e' : MooEditor F} {c : PluginClass} {p q : Plugin} {w d : ℕ}

/-- The documents in a window, each with the window. -/
def tabsOf (e : MooEditor F) (w : ℕ) : List (ℕ × ℕ) := (e.window w).docs.map (w, ·)

/-- The documents in the windows of an editor. -/
def tabs (e : MooEditor F) : List (ℕ × ℕ) := e.windows.flatMap (tabsOf e)

theorem mem_tabs {t : ℕ × ℕ} : t ∈ tabs e ↔ t.1 ∈ e.windows ∧ t.2 ∈ (e.window t.1).docs := by
  obtain ⟨w, d⟩ := t
  simp only [tabs, tabsOf, List.mem_flatMap, List.mem_map, Prod.mk.injEq]
  constructor
  · rintro ⟨v, hv, x, hx, rfl, rfl⟩
    exact ⟨hv, hx⟩
  · rintro ⟨hw, hd⟩
    exact ⟨w, hw, d, hd, rfl, rfl⟩

theorem tabs_eq_items (e : MooEditor F) : tabs e = Bins.items e.windows (tabsOf e) [] := by
  simp [tabs, Bins.items]

theorem tabs_snd (e : MooEditor F) :
    (tabs e).map Prod.snd = e.windows.flatMap fun w => (e.window w).docs := by
  simp [tabs, tabsOf, List.map_flatMap]

/-! ## Names -/

namespace Plugin

/-- The plugin has the id and the type that it had. -/
def SameName (p q : Plugin) : Prop := q.id = p.id ∧ q.type = p.type

theorem SameName.trans {r : Plugin} (h : SameName p q) (h' : SameName q r) : SameName p r :=
  ⟨h'.1.trans h.1, h'.2.trans h.2⟩

theorem SameName.foldl {α : Type} {f : Plugin → α → Plugin} (h : ∀ p x, SameName p (f p x))
    (xs : List α) (p : Plugin) : SameName p (xs.foldl f p) := by
  induction xs generalizing p with
  | nil => exact ⟨rfl, rfl⟩
  | cons x xs ih => exact (h p x).trans (ih _)

theorem attachDoc_name (p : Plugin) (window : Option ℕ) (d : ℕ) :
    SameName p (p.attachDoc c window d) := by
  unfold attachDoc createDocPlugin
  split_ifs <;> exact ⟨rfl, rfl⟩

theorem detachDoc_name (p : Plugin) (window : Option ℕ) (d : ℕ) :
    SameName p (p.detachDoc window d) := by
  unfold detachDoc destroyDocPlugin
  split_ifs <;> exact ⟨rfl, rfl⟩

theorem attachWin_name (p : Plugin) (w : ℕ) (docs : List ℕ) :
    SameName p (p.attachWin c w docs) := by
  unfold attachWin
  split_ifs
  · exact ⟨rfl, rfl⟩
  · refine SameName.trans ?_ (SameName.foldl (fun p d => attachDoc_name p _ d) docs _)
    unfold createWinPlugin
    split_ifs <;> exact ⟨rfl, rfl⟩

theorem detachWin_name (p : Plugin) (w : ℕ) (docs : List ℕ) :
    SameName p (p.detachWin w docs) := by
  unfold detachWin
  split_ifs
  · exact ⟨rfl, rfl⟩
  · refine (SameName.foldl (fun p d => detachDoc_name p (some w) d) docs p).trans ?_
    unfold destroyWinPlugin
    split_ifs <;> exact ⟨rfl, rfl⟩

theorem attachWindows_name (p : Plugin) : SameName p (p.attachWindows c e) :=
  SameName.foldl (fun p w => attachWin_name p w _) _ p

theorem detachWindows_name (p : Plugin) : SameName p (p.detachWindows e) :=
  SameName.foldl (fun p w => detachWin_name p w _) _ p

theorem deinit_name (p : Plugin) : SameName p p.deinit := by
  unfold deinit
  split_ifs <;> exact ⟨rfl, rfl⟩

/-! ## All windows -/

/-- The plugin is attached to everything in the editor, or it is not enabled. -/
def Settled (e : MooEditor F) (p : Plugin) : Prop := p.Holds e.windows (tabs e) ∨ p.Idle

variable {ws l : List ℕ} {ts : List (ℕ × ℕ)}

/-- Documents of windows that are all different. -/
theorem notMem_of_nodup {w : ℕ} (hnd : ((tabsOf e w ++ ts).map Prod.snd).Nodup) :
    (e.window w).docs.Nodup ∧ ∀ d ∈ (e.window w).docs, d ∉ ts.map Prod.snd := by
  have hmap : (tabsOf e w).map Prod.snd = (e.window w).docs := by simp [tabsOf]
  rw [List.map_append, hmap, List.nodup_append] at hnd
  exact ⟨hnd.1, fun d hd hmem => hnd.2.2 d hd d hmem rfl⟩

theorem Holds.foldl_attachWin (h : p.Holds ws ts) (hts : ∀ t ∈ ts, t.1 ∈ ws) (hl : l.Nodup)
    (hdisj : ∀ w ∈ l, w ∉ ws) (hnd : ((l.flatMap (tabsOf e) ++ ts).map Prod.snd).Nodup) :
    (l.foldl (fun p w => p.attachWin c w (e.window w).docs) p).Holds (l ++ ws)
      (l.flatMap (tabsOf e) ++ ts) := by
  induction l generalizing p ws ts with
  | nil => exact h
  | cons w l ih =>
    obtain ⟨hw, hl⟩ := List.nodup_cons.1 hl
    have hperm : (l.flatMap (tabsOf e) ++ (tabsOf e w ++ ts)).Perm
        ((w :: l).flatMap (tabsOf e) ++ ts) := by
      have hcomm : (l.flatMap (tabsOf e) ++ tabsOf e w).Perm (tabsOf e w ++ l.flatMap (tabsOf e)) :=
        List.perm_append_comm
      simpa using hcomm.append_right ts
    have hnd' := (hperm.map Prod.snd).nodup_iff.2 hnd
    have hsub : ((tabsOf e w ++ ts).map Prod.snd).Nodup :=
      hnd'.sublist ((List.sublist_append_right _ _).map _)
    obtain ⟨hdocs, hnot⟩ := notMem_of_nodup hsub
    have hone := h.attachWin (c := c) (hdisj w List.mem_cons_self) hts hdocs hnot
    refine (ih hone ?_ hl ?_ hnd').perm List.perm_middle hperm
    · intro t ht
      rcases List.mem_append.1 ht with ht | ht
      · obtain ⟨x, -, rfl⟩ := List.mem_map.1 ht
        exact List.mem_cons_self
      · exact List.mem_cons_of_mem _ (hts t ht)
    · intro v hv hmem
      rcases List.mem_cons.1 hmem with rfl | hmem
      · exact hw hv
      · exact hdisj v (List.mem_cons_of_mem _ hv) hmem

theorem Holds.foldl_detachWin (h : p.Holds (l ++ ws) (l.flatMap (tabsOf e) ++ ts))
    (hts : ∀ t ∈ ts, t.1 ∈ ws) (hl : (l ++ ws).Nodup)
    (hnd : ((l.flatMap (tabsOf e) ++ ts).map Prod.snd).Nodup) :
    (l.foldl (fun p w => p.detachWin w (e.window w).docs) p).Holds ws ts := by
  induction l generalizing p with
  | nil => exact h
  | cons w l ih =>
    obtain ⟨hw, hl⟩ := List.nodup_cons.1 hl
    have hassoc : (w :: l).flatMap (tabsOf e) ++ ts =
        tabsOf e w ++ (l.flatMap (tabsOf e) ++ ts) := by simp
    rw [hassoc] at h hnd
    obtain ⟨hdocs, hnot⟩ := notMem_of_nodup hnd
    have hnd' : ((l.flatMap (tabsOf e) ++ ts).map Prod.snd).Nodup :=
      hnd.sublist ((List.sublist_append_right _ _).map _)
    refine ih (h.detachWin hw ?_ hdocs hnot) hl hnd'
    intro t ht
    rcases List.mem_append.1 ht with ht | ht
    · obtain ⟨v, hv, ht⟩ := List.mem_flatMap.1 ht
      obtain ⟨x, -, rfl⟩ := List.mem_map.1 ht
      exact List.mem_append_left _ hv
    · exact List.mem_append_right _ (hts t ht)

theorem Holds.attachWindows (h : p.Holds [] []) (hw : e.windows.Nodup)
    (hnd : ((tabs e).map Prod.snd).Nodup) : (p.attachWindows c e).Holds e.windows (tabs e) := by
  have hnd' : ((e.windows.flatMap (tabsOf e) ++ []).map Prod.snd).Nodup := by simpa [tabs] using hnd
  have := h.foldl_attachWin (c := c) (e := e) (by simp) hw (by simp) hnd'
  simpa [Plugin.attachWindows, tabs] using this

theorem Holds.detachWindows (h : p.Holds e.windows (tabs e)) (hw : e.windows.Nodup)
    (hnd : ((tabs e).map Prod.snd).Nodup) : (p.detachWindows e).Holds [] [] := by
  refine Holds.foldl_detachWin (e := e) ?_ (by simp) (by simpa using hw) ?_
  · simpa [tabs] using h
  · simpa [tabs] using hnd

theorem Idle.foldl_attachWin (h : p.Idle) (l : List ℕ) :
    l.foldl (fun p w => p.attachWin c w (e.window w).docs) p = p := by
  induction l with
  | nil => rfl
  | cons w l ih => rw [List.foldl_cons, h.attachWin, ih]

/-- The types of objects to make from now on. -/
theorem Settled.setTypes (h : p.Settled e) (win doc : Bool) :
    Settled e { p with winPluginType := win, docPluginType := doc } := by
  rcases h with h | h
  · exact .inl ⟨h.enabled, h.initialized, h.docs, h.calls, h.winPlugins, h.docPlugins⟩
  · exact .inr ⟨h.enabled, h.initialized, h.docs, h.calls, h.winPlugins, h.docPlugins⟩

/-! ## Enabling and disabling -/

/-- Starting a plugin that is enabled now. -/
theorem Idle.init {ok : Bool} (h : p.Idle) (hq : { p with enabled := true }.init c = (ok, q)) :
    SameName p q ∧ (ok = true → q.Holds [] []) ∧
      (ok = false → { q with enabled := false }.Idle) := by
  have hcall (ok : Bool) : follows (p.calls ++ [.init ok]) =
      some (if ok then some .empty else none) := follows_concat h.calls _
  unfold Plugin.init Plugin.call at hq
  rw [if_neg (by simp [h.initialized])] at hq
  split_ifs at hq
  · obtain ⟨rfl, rfl⟩ := Prod.mk.inj hq
    refine ⟨⟨rfl, rfl⟩, fun _ => ⟨rfl, rfl, by simp [h.docs], ?_, ?_, ?_⟩, by simp⟩
    · simpa [h.winPlugins, h.docPlugins, Held.empty, items] using hcall true
    · simp [h.winPlugins]
    · simp [h.docPlugins]
  · obtain ⟨rfl, rfl⟩ := Prod.mk.inj hq
    refine ⟨⟨rfl, rfl⟩, by simp, fun _ => ?_⟩
    exact ⟨rfl, h.initialized, h.docs, hcall false, h.winPlugins, h.docPlugins⟩

theorem Holds.deinit (h : p.Holds [] []) : { p.deinit with enabled := false }.Idle := by
  have hwin : p.winPlugins = ∅ := Finset.eq_empty_of_forall_notMem fun w hw => by
    simpa using h.winPlugins w hw
  have hdoc : p.docPlugins = ∅ := Finset.eq_empty_of_forall_notMem fun d hd => by
    simpa using h.docPlugins d hd
  have hcall := h.calls
  rw [hwin, hdoc] at hcall
  unfold Plugin.deinit Plugin.call
  rw [if_neg (by simp [h.initialized])]
  refine ⟨rfl, rfl, ?_, (follows_concat hcall .deinit).trans accept_deinit, hwin, hdoc⟩
  simpa using h.docs

/-- Enabling and disabling never fail an assertion. -/
theorem Settled.setEnabled (h : p.Settled e) (hw : e.windows.Nodup)
    (hnd : ((tabs e).map Prod.snd).Nodup) (enabled : Bool) :
    ∃ ok q, p.setEnabled c e enabled = some (ok, q) ∧ SameName p q ∧ q.Settled e ∧
      (enabled = false → q.Idle) := by
  unfold Plugin.setEnabled
  cases enabled with
  | true =>
    rw [if_pos rfl]
    unfold enable
    rcases h with h | h
    · exact ⟨true, p, if_pos h.enabled, ⟨rfl, rfl⟩, .inl h, by simp⟩
    · rw [if_neg (by simp [h.enabled]), if_neg (by simp [h.initialized])]
      split
      · next q hq =>
        obtain ⟨hname, -, hidle⟩ := h.init hq
        exact ⟨false, _, rfl, hname, .inr (hidle rfl), by simp⟩
      · next q hq =>
        obtain ⟨hname, hholds, -⟩ := h.init hq
        exact ⟨true, _, rfl, hname.trans (attachWindows_name q),
          .inl ((hholds rfl).attachWindows hw hnd), by simp⟩
  | false =>
    rw [if_neg (by simp)]
    unfold disable
    rcases h with h | h
    · rw [if_neg (by simp [h.enabled]), if_neg (by simp [h.initialized])]
      have hidle := (h.detachWindows hw hnd).deinit
      have hname := (detachWindows_name (e := e) p).trans (deinit_name _)
      exact ⟨true, _, rfl, hname, .inr hidle, fun _ => hidle⟩
    · exact ⟨true, p, by simp [h.enabled], ⟨rfl, rfl⟩, .inr h, fun _ => h⟩

end Plugin

/-! ## The store -/

namespace PluginStore

open Plugin

variable {s s' : PluginStore F} {k : List Char → PluginClass} {env : Env F N} {a : Answers F}

/-- What every run keeps. -/
structure Good (s : PluginStore F) : Prop where
  windows_nodup : s.editor.windows.Nodup
  windows_lt : ∀ w ∈ s.editor.windows, w < s.editor.nextWindow
  docs_nodup : ((tabs s.editor).map Prod.snd).Nodup
  ids_nodup : (s.list.map Plugin.id).Nodup
  types_nodup : (s.list.map Plugin.type).Nodup
  settled : ∀ p ∈ s.list, p.Settled s.editor
  left : ∀ id, id ∉ s.list.map Plugin.id →
    follows (s.left id).calls = some none ∧ (s.left id).winPlugins = ∅ ∧
      (s.left id).docPlugins = ∅

theorem start_good (e : MooEditor F) : (start e).Good where
  windows_nodup := by simp [start]
  windows_lt := by simp [start]
  docs_nodup := by simp [start, tabs]
  ids_nodup := by simp [start]
  types_nodup := by simp [start]
  settled := by simp [start]
  left := by simp [start, follows_nil]

/-- The windows have changed, and every plugin was told. -/
theorem Good.map (h : s.Good) {f : Plugin → Plugin} (hname : ∀ p, SameName p (f p))
    (hw : e.windows.Nodup) (hlt : ∀ w ∈ e.windows, w < e.nextWindow)
    (hd : ((tabs e).map Prod.snd).Nodup)
    (hf : ∀ p, p.Settled s.editor → (f p).Settled e) :
    Good { s with editor := e, list := s.list.map f } := by
  have hids : (s.list.map f).map Plugin.id = s.list.map Plugin.id := by
    rw [List.map_map]
    exact List.map_congr_left fun p _ => (hname p).1
  have htypes : (s.list.map f).map Plugin.type = s.list.map Plugin.type := by
    rw [List.map_map]
    exact List.map_congr_left fun p _ => (hname p).2
  refine ⟨hw, hlt, hd, hids ▸ h.ids_nodup, htypes ▸ h.types_nodup, ?_, ?_⟩
  · intro p hp
    obtain ⟨q, hq, rfl⟩ := List.mem_map.1 hp
    exact hf q (h.settled q hq)
  · intro id hid
    exact h.left id (hids ▸ hid)

/-! ## Plugins come and go -/

theorem lookup_some {id : List Char} (h : s.lookup id = some p) : p ∈ s.list ∧ p.id = id :=
  ⟨List.mem_of_find?_eq_some h, by simpa using List.find?_some h⟩

theorem lookup_none {id : List Char} : s.lookup id = none ↔ id ∉ s.list.map Plugin.id := by
  simp [lookup]

theorem get_some {type : ℕ} (h : s.get type = some p) : p ∈ s.list ∧ p.type = type :=
  ⟨List.mem_of_find?_eq_some h, by simpa using List.find?_some h⟩

theorem get_none {type : ℕ} : s.get type = none ↔ type ∉ s.list.map Plugin.type := by
  simp [get]

theorem Good.setPlugin (h : s.Good) (hp : p ∈ s.list) (hname : SameName p q)
    (hq : q.Settled s.editor) : (s.setPlugin q).Good := by
  have hone : ∀ r ∈ s.list, SameName r (if r.id = q.id then q else r) := by
    intro r hr
    split_ifs with hid
    · obtain rfl := List.inj_on_of_nodup_map h.ids_nodup hr hp (hid.trans hname.1)
      exact hname
    · exact ⟨rfl, rfl⟩
  have hids : (s.setPlugin q).list.map Plugin.id = s.list.map Plugin.id := by
    rw [PluginStore.setPlugin, List.map_map]
    exact List.map_congr_left fun r hr => (hone r hr).1
  have htypes : (s.setPlugin q).list.map Plugin.type = s.list.map Plugin.type := by
    rw [PluginStore.setPlugin, List.map_map]
    exact List.map_congr_left fun r hr => (hone r hr).2
  refine ⟨h.windows_nodup, h.windows_lt, h.docs_nodup, hids ▸ h.ids_nodup,
    htypes ▸ h.types_nodup, ?_, fun id hid => h.left id (hids ▸ hid)⟩
  intro r' hr'
  obtain ⟨r, hr, rfl⟩ := List.mem_map.1 hr'
  split_ifs
  · exact hq
  · exact h.settled r hr

theorem Good.elim_setPlugin (h : s.Good) (id : List Char) {f : Plugin → Plugin}
    (hname : ∀ p, SameName p (f p)) (hf : ∀ p, p.Settled s.editor → (f p).Settled s.editor) :
    ((s.lookup id).elim s fun p => s.setPlugin (f p)).Good := by
  cases hp : s.lookup id with
  | none => exact h
  | some p =>
    have hmem := (lookup_some hp).1
    exact h.setPlugin hmem (hname p) (hf p (h.settled p hmem))

theorem Good.setEnabled (h : s.Good) (id : List Char) (enabled : Bool) :
    ∃ s', s.setEnabled k id enabled = some s' ∧ s'.Good := by
  unfold PluginStore.setEnabled
  split
  · exact ⟨s, rfl, h⟩
  · next p hp =>
    obtain ⟨hmem, rfl⟩ := lookup_some hp
    obtain ⟨ok, q, heq, hname, hq, -⟩ := (h.settled p hmem).setEnabled (c := k p.id)
      h.windows_nodup h.docs_nodup enabled
    exact ⟨s.setPlugin q, by simp [heq], h.setPlugin hmem hname hq⟩

theorem Good.remove (h : s.Good) (hq : q.Idle) : (s.remove q).Good := by
  have hsub : (s.remove q).list.Sublist s.list := List.filter_sublist
  refine ⟨h.windows_nodup, h.windows_lt, h.docs_nodup, h.ids_nodup.sublist (hsub.map _),
    h.types_nodup.sublist (hsub.map _), fun r hr => h.settled r (hsub.subset hr), ?_⟩
  intro id hid
  simp only [PluginStore.remove] at hid ⊢
  by_cases hid' : id = q.id
  · subst hid'
    rw [Function.update_self]
    exact ⟨hq.calls, hq.winPlugins, hq.docPlugins⟩
  · rw [Function.update_of_ne hid']
    refine h.left id fun hmem => hid ?_
    obtain ⟨r, hr, rfl⟩ := List.mem_map.1 hmem
    exact List.mem_map_of_mem (List.mem_filter.2 ⟨hr, by simpa using hid'⟩)

/-- A plugin that is unregistered is gone, the others stay. -/
theorem Good.unregister (h : s.Good) (type : ℕ) :
    ∃ s', s.unregister k type = some s' ∧ s'.Good ∧
      s'.list.map Plugin.type = (s.list.map Plugin.type).erase type := by
  unfold PluginStore.unregister
  split
  · next hp =>
    exact ⟨s, rfl, h, (List.erase_of_not_mem (get_none.1 hp)).symm⟩
  · next p hp =>
    obtain ⟨hmem, rfl⟩ := get_some hp
    obtain ⟨ok, q, heq, hname, -, hq⟩ := (h.settled p hmem).setEnabled (c := k p.id)
      h.windows_nodup h.docs_nodup false
    refine ⟨s.remove q, by simp [heq], h.remove (hq rfl), ?_⟩
    rw [h.types_nodup.erase_eq_filter, List.filter_map]
    refine congrArg _ (List.filter_congr fun r hr => ?_)
    have : r.id = q.id ↔ r.type = p.type := by
      rw [hname.1]
      constructor <;> intro heq
      · rw [List.inj_on_of_nodup_map h.ids_nodup hr hmem heq]
      · rw [List.inj_on_of_nodup_map h.types_nodup hr hmem heq]
    simp [this, bne, Bool.beq_eq_decide_eq]

theorem Good.foldlM_unregister (h : s.Good) (types : List ℕ) :
    ∃ s', types.foldlM (fun s type => s.unregister k type) s = some s' ∧ s'.Good ∧
      s'.list.map Plugin.type = (s.list.map Plugin.type).diff types := by
  induction types generalizing s with
  | nil => exact ⟨s, rfl, h, by simp⟩
  | cons type types ih =>
    obtain ⟨s₁, heq₁, h₁, hlist₁⟩ := h.unregister (k := k) type
    obtain ⟨s₂, heq₂, h₂, hlist₂⟩ := ih h₁
    refine ⟨s₂, by simp [heq₁, heq₂], h₂, ?_⟩
    rw [hlist₂, hlist₁, List.diff_cons]

/-- After a shutdown no plugin is left. -/
theorem Good.shutdown (h : s.Good) : ∃ s', s.shutdown k = some s' ∧ s'.Good ∧ s'.list = [] := by
  obtain ⟨s', heq, hgood, hlist⟩ := h.foldlM_unregister (k := k) (s.list.map Plugin.type)
  refine ⟨s', heq, hgood, List.eq_nil_iff_forall_not_mem.2 fun p hp => ?_⟩
  have hmem : p.type ∈ s'.list.map Plugin.type := List.mem_map_of_mem hp
  rw [hlist, h.types_nodup.mem_sdiff_iff] at hmem
  exact hmem.2 hmem.1

theorem Good.register (h : s.Good) (id : List Char) (type : ℕ) (infoCheck enabled : Bool) :
    (s.register k id type infoCheck enabled).2.Good := by
  unfold PluginStore.register
  split_ifs with hchecks
  · exact h
  simp only [Bool.or_eq_true, not_or, Bool.not_eq_true', Bool.not_eq_false,
    Option.isSome_iff_ne_none, ne_eq, not_not, decide_eq_true_eq] at hchecks
  obtain ⟨⟨⟨-, htype⟩, -⟩, hid⟩ := hchecks
  have hid := lookup_none.1 hid
  have htype := get_none.1 htype
  obtain ⟨hcalls, hwin, hdoc⟩ := h.left id hid
  have hidle : (s.newPlugin k id type false).Idle := ⟨rfl, rfl, rfl, hcalls, hwin, hdoc⟩
  have hadd (p : Plugin) (hname : SameName (s.newPlugin k id type false) p)
      (hp : p.Settled s.editor) : Good { s with list := s.list ++ [p] } := by
    refine ⟨h.windows_nodup, h.windows_lt, h.docs_nodup, ?_, ?_, ?_, ?_⟩
    · rw [List.map_append, List.nodup_append]
      refine ⟨h.ids_nodup, by simp, ?_⟩
      rintro x hx y hy rfl
      rw [List.map_singleton, List.mem_singleton, hname.1] at hy
      obtain rfl : x = id := hy
      exact hid hx
    · rw [List.map_append, List.nodup_append]
      refine ⟨h.types_nodup, by simp, ?_⟩
      rintro x hx y hy rfl
      rw [List.map_singleton, List.mem_singleton, hname.2] at hy
      obtain rfl : x = type := hy
      exact htype hx
    · intro q hq
      rcases List.mem_append.1 hq with hq | hq
      · exact h.settled q hq
      · exact List.mem_singleton.1 hq ▸ hp
    · intro id' hid'
      exact h.left id' fun hmem => hid' (by simp [hmem])
  cases enabled with
  | false =>
    have hinit : (s.newPlugin k id type false).init (k id) = (true, s.newPlugin k id type false) :=
      by simp [Plugin.init, newPlugin]
    rw [hinit]
    refine hadd _ (attachWindows_name _) (.inr ?_)
    rw [Plugin.attachWindows, hidle.foldl_attachWin]
    exact hidle
  | true =>
    split
    · next q hq =>
      obtain ⟨hname, -, hqidle⟩ := hidle.init hq
      have hqidle := hqidle rfl
      refine ⟨h.windows_nodup, h.windows_lt, h.docs_nodup, h.ids_nodup, h.types_nodup, h.settled,
        ?_⟩
      intro id' hid'
      dsimp only at hid' ⊢
      by_cases heq : id' = id
      · subst heq
        rw [Function.update_self]
        exact ⟨hqidle.calls, hqidle.winPlugins, hqidle.docPlugins⟩
      · rw [Function.update_of_ne heq]
        exact h.left id' hid'
    · next q hq =>
      obtain ⟨hname, hholds, -⟩ := hidle.init hq
      exact hadd _ (hname.trans (attachWindows_name q))
        (.inl ((hholds rfl).attachWindows h.windows_nodup h.docs_nodup))

/-! ## Windows and documents come and go -/

theorem tabs_createWindow (h : s.Good) : tabs s.editor.createWindow.2 = tabs s.editor := by
  have hnew : s.editor.nextWindow ∉ s.editor.windows := fun hw =>
    Nat.lt_irrefl _ (h.windows_lt _ hw)
  rw [tabs_eq_items, tabs_eq_items]
  have hempty : tabsOf s.editor.createWindow.2 s.editor.nextWindow = [] := by
    simp [tabsOf, MooEditor.createWindow]
  simp only [MooEditor.createWindow] at hempty ⊢
  rw [Bins.items_concat_empty hempty]
  refine Bins.items_congr fun w hw => ?_
  have hne : w ≠ s.editor.nextWindow := fun heq => hnew (heq ▸ hw)
  simp [tabsOf, hne]

theorem Good.createWindow (h : s.Good) : (s.createWindow k).Good := by
  have hnew : s.editor.nextWindow ∉ s.editor.windows := fun hw =>
    Nat.lt_irrefl _ (h.windows_lt _ hw)
  have hdocs : (s.editor.createWindow.2.window s.editor.createWindow.1).docs = [] := by
    simp [MooEditor.createWindow]
  refine h.map (fun p => attachWin_name p _ _) ?_ ?_ ?_ ?_
  · refine List.nodup_append.2 ⟨h.windows_nodup, by simp, ?_⟩
    rintro x hx y hy rfl
    exact hnew (List.mem_singleton.1 hy ▸ hx)
  · intro w hw
    rcases List.mem_append.1 hw with hw | hw
    · exact Nat.lt_succ_of_lt (h.windows_lt w hw)
    · rw [List.mem_singleton.1 hw]
      exact Nat.lt_succ_self _
  · rw [tabs_createWindow h]
    exact h.docs_nodup
  · rintro p (hp | hp)
    · refine .inl ?_
      rw [tabs_createWindow h, hdocs]
      have := hp.attachWin (c := k p.id) hnew (fun t ht => (mem_tabs.1 ht).1)
        (List.nodup_nil : ([] : List ℕ).Nodup) (by simp)
      exact this.perm (List.perm_append_singleton _ _).symm (.refl _)
    · rw [hp.attachWin]
      exact .inr hp

/-- A document is put in a window. -/
theorem tabs_insertDoc (h : s.Good) (hw : w ∈ s.editor.windows) :
    (tabs (s.editor.insertDoc w d)).Perm ((w, d) :: tabs s.editor) := by
  rw [tabs_eq_items, tabs_eq_items]
  refine Bins.perm_items_insert (b := w) h.windows_nodup hw ?_ ?_
  · have := (MooEditor.insertDoc_added s.editor w d).docs_self
    exact this.map _
  · intro v hv
    rw [tabsOf, tabsOf, (MooEditor.insertDoc_added s.editor w d).docs_of_ne v hv]

theorem notMem_tabs (hd : s.editor.getWindow d = none) :
    d ∉ (tabs s.editor).map Prod.snd := by
  intro hmem
  obtain ⟨⟨w, d⟩, ht, rfl⟩ := List.mem_map.1 hmem
  obtain ⟨hw, hd'⟩ := mem_tabs.1 ht
  exact MooEditor.getWindow_eq_none.1 hd w hw hd'

theorem Good.insertTab (h : s.Good) (hw : w ∈ s.editor.windows) : (s.insertTab k w d).Good := by
  unfold PluginStore.insertTab
  split_ifs with hin
  · exact h
  have hd := notMem_tabs (Option.not_isSome_iff_eq_none.1 hin)
  have hperm := tabs_insertDoc (d := d) h hw
  refine h.map (fun p => attachDoc_name p _ _) h.windows_nodup h.windows_lt ?_ ?_
  · refine (hperm.map Prod.snd).nodup_iff.2 ?_
    exact List.nodup_cons.2 ⟨hd, h.docs_nodup⟩
  · rintro p (hp | hp)
    · exact .inl ((hp.attachDoc hw hd).perm (.refl _) hperm.symm)
    · rw [hp.attachDoc]
      exact .inr hp

theorem Good.newDoc (h : s.Good) (hw : w ∈ s.editor.windows) : (s.newDoc k env w).Good := by
  have hsame : Good { s with editor := (s.editor.newObject env).2 } :=
    ⟨h.windows_nodup, h.windows_lt, h.docs_nodup, h.ids_nodup, h.types_nodup, h.settled, h.left⟩
  exact hsame.insertTab hw

/-- A document is taken out of a window. -/
theorem tabs_removeDoc (h : s.Good) (hw : w ∈ s.editor.windows)
    (hd : d ∈ (s.editor.window w).docs) :
    (tabs s.editor).Perm ((w, d) :: tabs (MooEditor.removeDoc a s.editor w d)) := by
  rw [tabs_eq_items, tabs_eq_items]
  refine Bins.perm_items_insert (b := w) h.windows_nodup hw ?_ ?_
  · have := (List.perm_cons_erase hd).map (w, ·)
    simpa [tabsOf, MooEditor.removeDoc, MooEditor.setWindow] using this
  · intro v hv
    simp [tabsOf, MooEditor.removeDoc, MooEditor.setWindow, hv]

theorem Good.removeDoc (h : s.Good) (hw : w ∈ s.editor.windows) : (s.removeDoc a w d).Good := by
  unfold PluginStore.removeDoc
  split_ifs with hd
  swap
  · exact h
  have hperm := tabs_removeDoc (a := a) h hw hd
  have hnd := (hperm.map Prod.snd).nodup_iff.1 h.docs_nodup
  obtain ⟨hnot, hnd⟩ := List.nodup_cons.1 hnd
  refine h.map (fun p => detachDoc_name p _ _) h.windows_nodup h.windows_lt hnd ?_
  rintro p (hp | hp)
  · exact .inl ((hp.perm (.refl _) hperm).detachDoc hnot)
  · rw [hp.detachDoc]
    exact .inr hp

theorem Good.doCloseDoc (h : s.Good) : (s.doCloseDoc a d).Good := by
  unfold PluginStore.doCloseDoc
  split
  · next w hw => exact h.removeDoc (List.mem_of_find?_eq_some hw)
  · next hd =>
    refine h.map (fun p => detachDoc_name p _ _) h.windows_nodup h.windows_lt h.docs_nodup ?_
    rintro p (hp | hp)
    · refine .inl ?_
      rw [hp.detachDoc_of_notMem (notMem_tabs hd)]
      exact hp
    · rw [hp.detachDoc]
      exact .inr hp

/-- Closing one of the documents of a window. -/
theorem doCloseDoc_of_mem (h : s.Good) (hw : w ∈ s.editor.windows)
    (hd : d ∈ (s.editor.window w).docs) : s.doCloseDoc a d = s.removeDoc a w d := by
  have hget : s.editor.getWindow d = some w := by
    cases hv : s.editor.getWindow d with
    | none => exact absurd hd (MooEditor.getWindow_eq_none.1 hv w hw)
    | some v =>
      have hv' := List.mem_of_find?_eq_some hv
      have hdv : d ∈ (s.editor.window v).docs := by simpa using List.find?_some hv
      have hnd := h.docs_nodup
      rw [tabs_snd] at hnd
      have hnd : (Bins.items s.editor.windows (fun w => (s.editor.window w).docs) []).Nodup := by
        simpa [Bins.items] using hnd
      have : v = w := Bins.bin_unique hnd hv' hw hdv hd
      rw [this]
  unfold PluginStore.doCloseDoc
  rw [hget]

/-- Closing all documents of a window. -/
theorem Good.foldl_doCloseDoc (h : s.Good) (hw : w ∈ s.editor.windows) {docs : List ℕ}
    (hdocs : (s.editor.window w).docs = docs) :
    (docs.foldl (fun s d => s.doCloseDoc a d) s).Good ∧
      (docs.foldl (fun s d => s.doCloseDoc a d) s).editor.windows = s.editor.windows ∧
      ((docs.foldl (fun s d => s.doCloseDoc a d) s).editor.window w).docs = [] := by
  induction docs generalizing s with
  | nil => exact ⟨h, rfl, hdocs⟩
  | cons d docs ih =>
    have hd : d ∈ (s.editor.window w).docs := by simp [hdocs]
    have hone : s.doCloseDoc a d = s.removeDoc a w d := doCloseDoc_of_mem h hw hd
    have heq : (s.removeDoc a w d).editor = MooEditor.removeDoc a s.editor w d := by
      simp [PluginStore.removeDoc, hd]
    have hrest : ((s.removeDoc a w d).editor.window w).docs = docs := by
      rw [heq]
      simp [MooEditor.removeDoc, MooEditor.setWindow, hdocs]
    have hwindows : (s.removeDoc a w d).editor.windows = s.editor.windows := by rw [heq]; rfl
    rw [List.foldl_cons, hone]
    obtain ⟨hgood, hws, hempty⟩ := ih (h.removeDoc hw) (hwindows.symm ▸ hw) hrest
    exact ⟨hgood, hws.trans hwindows, hempty⟩

theorem Good.closeWindow (h : s.Good) : (s.closeWindow a w).Good := by
  unfold PluginStore.closeWindow
  split_ifs with hw
  swap
  · exact h
  unfold PluginStore.doCloseWindow
  obtain ⟨hgood, hws, hempty⟩ := h.foldl_doCloseDoc (a := a) hw rfl
  generalize (s.editor.window w).docs.foldl (fun s d => s.doCloseDoc a d) s = s' at hgood hws hempty
  have hw' : w ∈ s'.editor.windows := hws.symm ▸ hw
  have htabs : tabs { s'.editor with windows := s'.editor.windows.erase w } = tabs s'.editor := by
    rw [tabs_eq_items, tabs_eq_items]
    exact Bins.items_erase_empty (f := tabsOf s'.editor) (by simp [tabsOf, hempty])
  have hperm : s'.editor.windows.Perm (w :: s'.editor.windows.erase w) := List.perm_cons_erase hw'
  obtain ⟨hnot, hnd⟩ := List.nodup_cons.1 (hperm.nodup_iff.1 hgood.windows_nodup)
  refine hgood.map (fun p => detachWin_name p _ _) hnd
    (fun v hv => hgood.windows_lt v (List.mem_of_mem_erase hv)) (htabs ▸ hgood.docs_nodup) ?_
  rintro p (hp | hp)
  · refine .inl ?_
    rw [htabs]
    dsimp only
    rw [hempty]
    refine Holds.detachWin (hp.perm hperm (.refl _)) hnot ?_ List.nodup_nil (by simp)
    intro t ht
    obtain ⟨htw, htd⟩ := mem_tabs.1 ht
    refine (List.mem_erase_of_ne ?_).2 htw
    intro heq
    rw [heq, hempty] at htd
    simp at htd
  · rw [hp.detachWin]
    exact .inr hp

/-! ## Runs -/

/-- No assertion fails, and the store stays good. -/
theorem Good.step (h : s.Good) (k : List Char → PluginClass) (op : Op F N) (hop : op.Valid s) :
    ∃ s', s.step k op = some s' ∧ s'.Good ∧ (op = .shutdown → s'.list = []) := by
  cases op with
  | register id type infoCheck enabled =>
    exact ⟨_, rfl, h.register id type infoCheck enabled, by simp⟩
  | setEnabled id enabled =>
    obtain ⟨s', heq, hgood⟩ := h.setEnabled (k := k) id enabled
    exact ⟨s', heq, hgood, by simp⟩
  | unregister type =>
    obtain ⟨s', heq, hgood, -⟩ := h.unregister (k := k) type
    exact ⟨s', heq, hgood, by simp⟩
  | shutdown =>
    obtain ⟨s', heq, hgood, hlist⟩ := h.shutdown (k := k)
    exact ⟨s', heq, hgood, fun _ => hlist⟩
  | setWinPluginType id =>
    exact ⟨_, rfl, h.elim_setPlugin id (fun _ => ⟨rfl, rfl⟩) fun p hp => hp.setTypes true _,
      by simp⟩
  | setDocPluginType id =>
    exact ⟨_, rfl, h.elim_setPlugin id (fun _ => ⟨rfl, rfl⟩) fun p hp => hp.setTypes _ true,
      by simp⟩
  | createWindow => exact ⟨_, rfl, h.createWindow, by simp⟩
  | newDoc env w => exact ⟨_, rfl, h.newDoc hop, by simp⟩
  | insertTab w d => exact ⟨_, rfl, h.insertTab hop, by simp⟩
  | removeDoc a w d => exact ⟨_, rfl, h.removeDoc hop, by simp⟩
  | doCloseDoc a d => exact ⟨_, rfl, h.doCloseDoc, by simp⟩
  | closeWindow a w => exact ⟨_, rfl, h.closeWindow, by simp⟩

theorem Run.good (h : Run N e s) : s.Good := by
  induction h with
  | start => exact start_good e
  | @step s s' k op _ hop heq ih =>
    obtain ⟨t, ht, hgood, -⟩ := ih.step k op hop
    obtain rfl : t = s' := Option.some.inj (ht.symm.trans heq)
    exact hgood

/-- In every run each enabled plugin has been attached to exactly the windows of the editor and
the documents in them, each once, and what it was told keeps to the order in which plugins are
started, attached, detached and stopped. A plugin that is not enabled or not registered was told
to let go of everything. No assertion fails, and a shutdown leaves no plugin. -/
theorem Run.attachments_follow (h : Run N e s) :
    (∀ p ∈ s.list,
      (p.enabled = true → p.docs.Perm (s.editor.windows.flatMap fun w => (s.editor.window w).docs) ∧
        ∃ held, follows p.calls = some (some held) ∧
          (∀ w, w ∈ held.hosts ↔ w ∈ s.editor.windows) ∧
          ∀ o d, (o, d) ∈ held.items ↔
            ∃ w ∈ s.editor.windows, o = some w ∧ d ∈ (s.editor.window w).docs) ∧
      (p.enabled = false → p.docs = [] ∧ follows p.calls = some none)) ∧
    (∀ id, s.lookup id = none → follows (s.left id).calls = some none) ∧
    ∀ (k : List Char → PluginClass) (op : Op F N), op.Valid s →
      ∃ s', s.step k op = some s' ∧ (op = .shutdown → s'.list = []) := by
  refine ⟨fun p hp => ⟨fun henabled => ?_, fun henabled => ?_⟩, fun id hid => ?_,
    fun k op hop => ?_⟩
  · rcases h.good.settled p hp with hp | hp
    · refine ⟨?_, _, hp.calls, fun w => List.mem_toFinset, fun o d => ?_⟩
      · rw [← tabs_snd]
        exact hp.docs
      · rw [mem_items]
        constructor
        · rintro ⟨⟨w, x⟩, ht, heq⟩
          obtain ⟨rfl, rfl⟩ := Prod.mk.inj heq
          obtain ⟨hw, hd⟩ := mem_tabs.1 ht
          exact ⟨w, hw, rfl, hd⟩
        · rintro ⟨w, hw, rfl, hd⟩
          exact ⟨(w, d), mem_tabs.2 ⟨hw, hd⟩, rfl⟩
    · exact absurd (hp.enabled.symm.trans henabled) (by simp)
  · rcases h.good.settled p hp with hp | hp
    · exact absurd (hp.enabled.symm.trans henabled) (by simp)
    · exact ⟨hp.docs, hp.calls⟩
  · exact (h.good.left id (lookup_none.1 hid)).1
  · obtain ⟨s', heq, -, hlist⟩ := h.good.step k op hop
    exact ⟨s', heq, hlist⟩

/-- An editor without windows. -/
def emptyEditor : MooEditor Unit where
  windows := []
  windowless := []
  window _ := ⟨[], none⟩
  doc _ := ⟨none, "", false, false, false, false, false, false⟩
  nextWindow := 0
  nextDoc := 0
  top := none

/-- A plugin that is told of a new window. -/
def opened : PluginStore Unit :=
  ((start emptyEditor).register (fun _ => ⟨true, true, true, fun _ => true, fun _ => true⟩) ['p'] 0
    true true).2.createWindow fun _ => ⟨true, true, true, fun _ => true, fun _ => true⟩

theorem Run.attachments_follow_opened :
    opened.editor.windows = [0] ∧ ∀ p ∈ opened.list, p.enabled = true →
      ∃ held, follows p.calls = some (some held) ∧
        ∀ w, w ∈ held.hosts ↔ w ∈ opened.editor.windows := by
  refine ⟨rfl, fun p hp henabled => ?_⟩
  have hregister := Run.step (N := Unit) (e := emptyEditor)
    (fun _ => ⟨true, true, true, fun _ => true, fun _ => true⟩) (.register ['p'] 0 true true) .start
    trivial rfl
  have hrun := Run.step (fun _ => ⟨true, true, true, fun _ => true, fun _ => true⟩) .createWindow
    hregister trivial rfl
  obtain ⟨-, held, heq, hw, -⟩ := ((Run.attachments_follow (s := opened) hrun).1 p hp).1 henabled
  exact ⟨held, heq, hw⟩

end PluginStore

end Medit.Plugins
