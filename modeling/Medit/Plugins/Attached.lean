import Mathlib.Data.Finset.Basic
import Mathlib.Data.List.Perm.Lattice
import Medit.Plugins.Model

/-!
# What one plugin is attached to

While a plugin is enabled it is attached to windows and to documents in them, as it was told; else
to nothing.

## Main definitions

* `Plugin.Holds` — an enabled plugin is attached to these windows and documents.
* `Plugin.Idle` — a plugin that is not enabled.

## Main results

* `Plugin.Holds.attachWin`, `Plugin.Holds.detachWin`, … — what each function makes of it.
-/

namespace Medit.Plugins.Plugin

open Attachments

variable {c : PluginClass} {p : Plugin} {ws ws' : List ℕ} {tabs tabs' : List (ℕ × ℕ)} {w d : ℕ}
  {docs : List ℕ}

/-- The documents in windows, as what plugins were told of them. -/
def items (tabs : List (ℕ × ℕ)) : Finset (Option ℕ × ℕ) :=
  (tabs.map fun t => (some t.1, t.2)).toFinset

theorem mem_items {x : Option ℕ × ℕ} : x ∈ items tabs ↔ ∃ t ∈ tabs, (some t.1, t.2) = x := by
  simp [items]

theorem some_mem_items : (some w, d) ∈ items tabs ↔ (w, d) ∈ tabs := by
  simp [mem_items]

/-- An enabled plugin is attached to the windows `ws` and to the documents `tabs` in them. -/
structure Holds (p : Plugin) (ws : List ℕ) (tabs : List (ℕ × ℕ)) : Prop where
  enabled : p.enabled = true
  initialized : p.initialized = true
  docs : p.docs.Perm (tabs.map Prod.snd)
  calls : follows p.calls = some (some ⟨ws.toFinset, p.winPlugins, items tabs, p.docPlugins⟩)
  winPlugins : ∀ w ∈ p.winPlugins, w ∈ ws
  docPlugins : ∀ d ∈ p.docPlugins, d ∈ tabs.map Prod.snd

/-- A plugin that is not enabled. -/
structure Idle (p : Plugin) : Prop where
  enabled : p.enabled = false
  initialized : p.initialized = false
  docs : p.docs = []
  calls : follows p.calls = some none
  winPlugins : p.winPlugins = ∅
  docPlugins : p.docPlugins = ∅

theorem Holds.perm (h : p.Holds ws tabs) (hw : ws.Perm ws') (ht : tabs.Perm tabs') :
    p.Holds ws' tabs' where
  enabled := h.enabled
  initialized := h.initialized
  docs := h.docs.trans (ht.map _)
  calls := by
    have hws : ws'.toFinset = ws.toFinset := List.toFinset_eq_of_perm _ _ hw.symm
    have hitems : items tabs' = items tabs := List.toFinset_eq_of_perm _ _ (ht.symm.map _)
    rw [hws, hitems]
    exact h.calls
  winPlugins v hv := hw.subset (h.winPlugins v hv)
  docPlugins d hd := (ht.map _).subset (h.docPlugins d hd)

/-! ## Documents -/

theorem Holds.attachDoc (h : p.Holds ws tabs) (hw : w ∈ ws) (hd : d ∉ tabs.map Prod.snd) :
    (p.attachDoc c (some w) d).Holds ws ((w, d) :: tabs) := by
  have hitems : items ((w, d) :: tabs) = insert (some w, d) (items tabs) := by
    ext x
    simp [mem_items, eq_comm]
  have hcall := follows_concat h.calls (.attachItem (some w) d)
  rw [accept_attachItem (by simpa using hw)] at hcall
  swap
  · intro x hx heq
    obtain ⟨t, ht, rfl⟩ := mem_items.1 hx
    exact hd (List.mem_map.2 ⟨t, ht, heq⟩)
  rw [← hitems] at hcall
  have hobj : d ∉ p.docPlugins := fun hmem => hd (h.docPlugins d hmem)
  have hcreate (ok : Bool) := (follows_concat hcall (.createItem (some w) d ok)).trans
    (accept_createItem (some_mem_items.2 List.mem_cons_self) hobj)
  have hdocs : (d :: p.docs).Perm (((w, d) :: tabs).map Prod.snd) := h.docs.cons d
  unfold Plugin.attachDoc createDocPlugin Plugin.call
  rw [if_neg (by simp [h.enabled])]
  dsimp only
  split_ifs with htype hok
  · exact ⟨h.enabled, h.initialized, hdocs, hcall, h.winPlugins,
      fun x hx => List.mem_cons_of_mem _ (h.docPlugins x hx)⟩
  · refine ⟨h.enabled, h.initialized, hdocs, hcreate true, h.winPlugins, ?_⟩
    intro x hx
    rcases Finset.mem_insert.1 hx with rfl | hx
    · exact List.mem_cons_self
    · exact List.mem_cons_of_mem _ (h.docPlugins x hx)
  · exact ⟨h.enabled, h.initialized, hdocs, hcreate false, h.winPlugins,
      fun x hx => List.mem_cons_of_mem _ (h.docPlugins x hx)⟩

/-- A document that is in no window is not known. -/
theorem Holds.detachDoc_of_notMem (h : p.Holds ws tabs) (hd : d ∉ tabs.map Prod.snd)
    (window : Option ℕ) : p.detachDoc window d = p := by
  have : d ∉ p.docs := fun hmem => hd (h.docs.subset hmem)
  simp [Plugin.detachDoc, this]

theorem Holds.detachDoc (h : p.Holds ws ((w, d) :: tabs)) (hd : d ∉ tabs.map Prod.snd) :
    (p.detachDoc (some w) d).Holds ws tabs := by
  have hmem : d ∈ p.docs := h.docs.symm.subset List.mem_cons_self
  have hdocs : (p.docs.erase d).Perm (tabs.map Prod.snd) := by
    have := h.docs.erase d
    simpa using this
  have hitem : (some w, d) ∈ items ((w, d) :: tabs) := some_mem_items.2 List.mem_cons_self
  have hitems : (items ((w, d) :: tabs)).erase (some w, d) = items tabs := by
    ext x
    rw [Finset.mem_erase, mem_items, mem_items]
    constructor
    · rintro ⟨hne, t, ht, rfl⟩
      rcases List.mem_cons.1 ht with rfl | ht
      · exact absurd rfl hne
      · exact ⟨t, ht, rfl⟩
    · rintro ⟨t, ht, rfl⟩
      refine ⟨fun heq => hd ?_, t, List.mem_cons_of_mem _ ht, rfl⟩
      exact List.mem_map.2 ⟨t, ht, (Prod.mk.inj heq).2⟩
  unfold Plugin.detachDoc destroyDocPlugin Plugin.call
  rw [if_neg (by simp [h.enabled, hmem])]
  split_ifs with hobj
  · have hcall := follows_concat h.calls (.destroyItem (some w) d)
    rw [accept_destroyItem hitem hobj] at hcall
    have hcall' := follows_concat hcall (.detachItem (some w) d)
    rw [accept_detachItem hitem (by simp), hitems] at hcall'
    refine ⟨h.enabled, h.initialized, hdocs, hcall', h.winPlugins, ?_⟩
    intro x hx
    obtain ⟨hne, hx⟩ := Finset.mem_erase.1 hx
    exact (List.mem_cons.1 (h.docPlugins x hx)).resolve_left hne
  · have hcall := follows_concat h.calls (.detachItem (some w) d)
    rw [accept_detachItem hitem hobj, hitems] at hcall
    refine ⟨h.enabled, h.initialized, hdocs, hcall, h.winPlugins, ?_⟩
    intro x hx
    refine (List.mem_cons.1 (h.docPlugins x hx)).resolve_left ?_
    rintro rfl
    exact hobj hx

theorem Holds.foldl_attachDoc (h : p.Holds ws tabs) (hw : w ∈ ws) (hnd : docs.Nodup)
    (hd : ∀ d ∈ docs, d ∉ tabs.map Prod.snd) :
    (docs.foldl (fun p doc => p.attachDoc c (some w) doc) p).Holds ws
      (docs.map (w, ·) ++ tabs) := by
  induction docs generalizing p tabs with
  | nil => exact h
  | cons d docs ih =>
    obtain ⟨hdd, hnd⟩ := List.nodup_cons.1 hnd
    have hone := h.attachDoc (c := c) hw (hd d List.mem_cons_self)
    refine (ih hone hnd ?_).perm (.refl _) List.perm_middle
    intro x hx hmem
    rcases List.mem_cons.1 hmem with rfl | hmem
    · exact hdd hx
    · exact hd x (List.mem_cons_of_mem _ hx) hmem

theorem Holds.foldl_detachDoc (h : p.Holds ws (docs.map (w, ·) ++ tabs)) (hnd : docs.Nodup)
    (hd : ∀ d ∈ docs, d ∉ tabs.map Prod.snd) :
    (docs.foldl (fun p doc => p.detachDoc (some w) doc) p).Holds ws tabs := by
  induction docs generalizing p with
  | nil => exact h
  | cons d docs ih =>
    obtain ⟨hdd, hnd⟩ := List.nodup_cons.1 hnd
    refine ih (h.detachDoc ?_) hnd fun x hx => hd x (List.mem_cons_of_mem _ hx)
    intro hmem
    have hmem : d ∈ docs ∨ d ∈ tabs.map Prod.snd := by simpa using hmem
    rcases hmem with hmem | hmem
    · exact hdd hmem
    · exact hd d List.mem_cons_self hmem

/-! ## Windows -/

theorem Holds.attachWin (h : p.Holds ws tabs) (hw : w ∉ ws) (htabs : ∀ t ∈ tabs, t.1 ∈ ws)
    (hnd : docs.Nodup) (hd : ∀ d ∈ docs, d ∉ tabs.map Prod.snd) :
    (p.attachWin c w docs).Holds (w :: ws) (docs.map (w, ·) ++ tabs) := by
  have hobj : w ∉ p.winPlugins := fun hmem => hw (h.winPlugins w hmem)
  have hcall := follows_concat h.calls (.attachHost w)
  rw [accept_attachHost (by simpa using hw), ← List.toFinset_cons] at hcall
  have hnone : ∀ x ∈ items tabs, x.1 ≠ some w := by
    intro x hx heq
    obtain ⟨t, ht, rfl⟩ := mem_items.1 hx
    obtain rfl := Option.some.inj heq
    exact hw (htabs t ht)
  have hcreate (ok : Bool) := (follows_concat hcall (.createHost w ok)).trans
    (accept_createHost (List.mem_toFinset.2 List.mem_cons_self) hobj hnone)
  have hwin : ((p.call (.attachHost w)).createWinPlugin c w).Holds (w :: ws) tabs := by
    unfold createWinPlugin Plugin.call
    dsimp only
    split_ifs with htype hok
    · exact ⟨h.enabled, h.initialized, h.docs, hcall,
        fun x hx => List.mem_cons_of_mem _ (h.winPlugins x hx), h.docPlugins⟩
    · refine ⟨h.enabled, h.initialized, h.docs, hcreate true, ?_, h.docPlugins⟩
      intro x hx
      rcases Finset.mem_insert.1 hx with rfl | hx
      · exact List.mem_cons_self
      · exact List.mem_cons_of_mem _ (h.winPlugins x hx)
    · exact ⟨h.enabled, h.initialized, h.docs, hcreate false,
        fun x hx => List.mem_cons_of_mem _ (h.winPlugins x hx), h.docPlugins⟩
  unfold Plugin.attachWin
  rw [if_neg (by simp [h.enabled])]
  exact hwin.foldl_attachDoc List.mem_cons_self hnd hd

theorem Holds.detachWin (h : p.Holds (w :: ws) (docs.map (w, ·) ++ tabs)) (hw : w ∉ ws)
    (htabs : ∀ t ∈ tabs, t.1 ∈ ws) (hnd : docs.Nodup) (hd : ∀ d ∈ docs, d ∉ tabs.map Prod.snd) :
    (p.detachWin w docs).Holds ws tabs := by
  have hdocs := h.foldl_detachDoc hnd hd
  have hnone : ∀ x ∈ items tabs, x.1 ≠ some w := by
    intro x hx heq
    obtain ⟨t, ht, rfl⟩ := mem_items.1 hx
    obtain rfl := Option.some.inj heq
    exact hw (htabs t ht)
  have hmem : w ∈ (w :: ws).toFinset := by simp
  have herase : (w :: ws).toFinset.erase w = ws.toFinset := by
    rw [List.toFinset_cons, Finset.erase_insert (by simpa using hw)]
  unfold Plugin.detachWin
  rw [if_neg (by simp [h.enabled])]
  generalize docs.foldl (fun p doc => p.detachDoc (some w) doc) p = q at hdocs
  unfold destroyWinPlugin Plugin.call
  split_ifs with hobj
  · have hcall := follows_concat hdocs.calls (.destroyHost w)
    rw [accept_destroyHost hobj hnone] at hcall
    have hcall' := follows_concat hcall (.detachHost w)
    rw [accept_detachHost hmem (by simp) hnone] at hcall'
    rw [herase] at hcall'
    refine ⟨hdocs.enabled, hdocs.initialized, hdocs.docs, hcall', ?_, hdocs.docPlugins⟩
    intro x hx
    obtain ⟨hne, hx⟩ := Finset.mem_erase.1 hx
    exact (List.mem_cons.1 (hdocs.winPlugins x hx)).resolve_left hne
  · have hcall := follows_concat hdocs.calls (.detachHost w)
    rw [accept_detachHost hmem hobj hnone] at hcall
    rw [herase] at hcall
    refine ⟨hdocs.enabled, hdocs.initialized, hdocs.docs, hcall, ?_, hdocs.docPlugins⟩
    intro x hx
    refine (List.mem_cons.1 (hdocs.winPlugins x hx)).resolve_left ?_
    rintro rfl
    exact hobj hx

/-! ## A plugin that is not enabled -/

theorem Idle.attachDoc (h : p.Idle) (window : Option ℕ) : p.attachDoc c window d = p := by
  simp [Plugin.attachDoc, h.enabled]

theorem Idle.detachDoc (h : p.Idle) (window : Option ℕ) : p.detachDoc window d = p := by
  simp [Plugin.detachDoc, h.enabled]

theorem Idle.attachWin (h : p.Idle) : p.attachWin c w docs = p := by
  simp [Plugin.attachWin, h.enabled]

theorem Idle.detachWin (h : p.Idle) : p.detachWin w docs = p := by
  simp [Plugin.detachWin, h.enabled]

end Medit.Plugins.Plugin
