import Medit.Library.Replica
import Medit.Lsp.ServerStates

/-!
# The documents of a language server

What a process has been told about each document, with what is still queued, and what the editor
takes it to have been told.

## Main definitions

* `Outgoing.note` — what a message says about a document.
* `World.Attached` — the documents of the server and of the editor.
* `World.Synced` — the process knows what the editor takes it to know.
-/

namespace Medit

open Replica (Silent replay)

/-- What a message says about a document. -/
def Outgoing.note : Outgoing → Option (Replica.Message Uri (List Char))
  | didOpen uri version text => some (.opened uri version text)
  | didChange uri version text => some (.changed uri version text)
  | didSave uri _ => some (.saved uri)
  | didClose uri => some (.closed uri)
  | _ => none

namespace World

/-- What messages say about documents. -/
def notes (wire : List Outgoing) : List (Replica.Message Uri (List Char)) := wire.filterMap Outgoing.note

/-- What queued messages say about documents. -/
def queuedNotes (queued : List Queued) : List (Replica.Message Uri (List Char)) :=
  queued.filterMap fun message =>
    match message with
    | .call _ => none
    | .notify message => message.note

/-- The documents that the server has open belong to the editor, where every document and every URI
is there once. -/
structure Attached (docs : List Uri) (ldocs : List LspDoc) : Prop where
  docs_open : ∀ uri ∈ docs, ∃ ldoc ∈ ldocs, ldoc.uri = uri ∧ ldoc.opened
  nodup_docs : (ldocs.map (·.doc)).Nodup
  nodup_uris : (ldocs.map (·.uri)).Nodup

/-- What a process has been told can be followed, and has left the documents of the server open, with
the texts of the editor where no change is waiting to be sent and none has been lost. -/
structure Synced (said : List (Replica.Message Uri (List Char))) (docs : List Uri) (ldocs : List LspDoc)
    (texts : ℕ → List Char) (lost : Prop) : Prop where
  told : ∀ uri, ∃ doc, replay uri said = some doc ∧ (doc.isSome ↔ uri ∈ docs)
  mirror : ∀ ldoc ∈ ldocs, ldoc.uri ∈ docs → ∃ version text,
    replay ldoc.uri said = some (some (version, text)) ∧ version ≤ ldoc.version ∧
      (ldoc.changeTimeout = false → ¬ lost → text = texts ldoc.doc)

variable {docs docs' : List Uri} {ldocs ldocs' : List LspDoc} {ldoc old : LspDoc}
  {texts texts' : ℕ → List Char} {lost : Prop} {said pre post : List (Replica.Message Uri (List Char))}
  {m : Replica.Message Uri (List Char)}

@[simp] theorem notes_append {wire more : List Outgoing} :
    notes (wire ++ more) = notes wire ++ notes more := List.filterMap_append

@[simp] theorem queuedNotes_append {queued more : List Queued} :
    queuedNotes (queued ++ more) = queuedNotes queued ++ queuedNotes more := List.filterMap_append

/-! ## Lists of documents -/

/-- The documents with another state of one of them. -/
def replaceDoc (ldocs : List LspDoc) (ldoc : LspDoc) : List LspDoc :=
  ldocs.map fun d => if d.doc = ldoc.doc then ldoc else d

theorem mem_replaceDoc {d : LspDoc} (h : d ∈ replaceDoc ldocs ldoc) :
    d = ldoc ∨ d ∈ ldocs ∧ d.doc ≠ ldoc.doc := by
  obtain ⟨d', hd', rfl⟩ := List.mem_map.1 h
  split
  · exact .inl rfl
  · next hne => exact .inr ⟨hd', hne⟩

theorem mem_replaceDoc_self (hold : old ∈ ldocs) (hdoc : ldoc.doc = old.doc) :
    ldoc ∈ replaceDoc ldocs ldoc :=
  List.mem_map.2 ⟨old, hold, if_pos hdoc.symm⟩

theorem mem_replaceDoc_of_ne {d : LspDoc} (hd : d ∈ ldocs) (hne : d.doc ≠ ldoc.doc) :
    d ∈ replaceDoc ldocs ldoc :=
  List.mem_map.2 ⟨d, hd, if_neg hne⟩

theorem Attached.doc_inj (h : Attached docs ldocs) {d : LspDoc} (hd : d ∈ ldocs) (hold : old ∈ ldocs)
    (heq : d.doc = old.doc) : d = old :=
  List.inj_on_of_nodup_map h.nodup_docs hd hold heq

theorem Attached.uri_inj (h : Attached docs ldocs) {d : LspDoc} (hd : d ∈ ldocs) (hold : old ∈ ldocs)
    (heq : d.uri = old.uri) : d = old :=
  List.inj_on_of_nodup_map h.nodup_uris hd hold heq

/-- Every document that the server has open has been opened. -/
theorem Attached.opened (h : Attached docs ldocs) (hldoc : ldoc ∈ ldocs) (huri : ldoc.uri ∈ docs) :
    ldoc.opened := by
  obtain ⟨d, hd, heq, hopened⟩ := h.docs_open _ huri
  rwa [h.uri_inj hldoc hd heq.symm]

/-- A document with another state, which may open it at the server. -/
theorem Attached.replace (h : Attached docs ldocs) (hold : old ∈ ldocs) (hdoc : ldoc.doc = old.doc)
    (huri : ldoc.uri = old.uri) (hopened : old.opened → ldoc.opened)
    (hdocs : ∀ uri ∈ docs', uri ∈ docs ∨ uri = ldoc.uri ∧ ldoc.opened) :
    Attached docs' (replaceDoc ldocs ldoc) where
  docs_open uri hin := by
    rcases hdocs uri hin with hin | ⟨rfl, hnew⟩
    · obtain ⟨d, hd, rfl, hd'⟩ := h.docs_open uri hin
      by_cases heq : d.doc = ldoc.doc
      · obtain rfl := h.doc_inj hd hold (heq.trans hdoc)
        exact ⟨ldoc, mem_replaceDoc_self hold hdoc, huri, hopened hd'⟩
      · exact ⟨d, mem_replaceDoc_of_ne hd heq, rfl, hd'⟩
    · exact ⟨ldoc, mem_replaceDoc_self hold hdoc, rfl, hnew⟩
  nodup_docs := by
    have hmap : (replaceDoc ldocs ldoc).map (·.doc) = ldocs.map (·.doc) := by
      rw [replaceDoc, List.map_map]
      refine List.map_congr_left fun d _ => ?_
      simp only [Function.comp]
      split
      · next heq => exact heq.symm
      · rfl
    rw [hmap]
    exact h.nodup_docs
  nodup_uris := by
    have hmap : (replaceDoc ldocs ldoc).map (·.uri) = ldocs.map (·.uri) := by
      rw [replaceDoc, List.map_map]
      refine List.map_congr_left fun d hd => ?_
      simp only [Function.comp]
      split
      · next heq => rw [huri, h.doc_inj hd hold (heq.trans hdoc)]
      · rfl
    rw [hmap]
    exact h.nodup_uris

/-- One document less. -/
theorem Attached.filter (h : Attached docs ldocs) {doc : ℕ}
    (hdocs : ∀ uri ∈ docs', uri ∈ docs ∧ ∀ d ∈ ldocs, d.doc = doc → d.uri ≠ uri) :
    Attached docs' (ldocs.filter (·.doc ≠ doc)) where
  docs_open uri hin := by
    obtain ⟨huri, hne⟩ := hdocs uri hin
    obtain ⟨d, hd, rfl, hd'⟩ := h.docs_open uri huri
    have hdoc : d.doc ≠ doc := fun heq => hne d hd heq rfl
    exact ⟨d, List.mem_filter.2 ⟨hd, by simpa using hdoc⟩, rfl, hd'⟩
  nodup_docs := h.nodup_docs.sublist (List.filter_sublist.map _)
  nodup_uris := h.nodup_uris.sublist (List.filter_sublist.map _)

/-! ## What is said -/

/-- One more message, which says something about a document that is not mentioned later. -/
theorem Synced.say (h : Synced (pre ++ post) docs ldocs texts lost) {doc doc' : Option (ℤ × List Char)}
    (hpre : replay m.key pre = some doc) (hpost : Silent m.key post) (happly : m.apply doc = some doc')
    (hdocs : doc'.isSome ↔ m.key ∈ docs') (hother : ∀ uri, uri ≠ m.key → (uri ∈ docs' ↔ uri ∈ docs))
    (hold : ∀ d ∈ ldocs', d.uri ≠ m.key → d ∈ ldocs)
    (hnew : ∀ d ∈ ldocs', d.uri = m.key → ∀ version text, doc' = some (version, text) →
      version ≤ d.version ∧ (d.changeTimeout = false → ¬ lost → text = texts d.doc)) :
    Synced (pre ++ m :: post) docs' ldocs' texts lost where
  told uri := by
    by_cases hkey : uri = m.key
    · subst hkey
      exact ⟨doc', (Replica.replay_insert hpre hpost).trans happly, hdocs⟩
    · obtain ⟨d, hd, hiff⟩ := h.told uri
      exact ⟨d, (Replica.replay_insert_ne fun heq => hkey heq.symm).trans hd,
        hiff.trans (hother uri hkey).symm⟩
  mirror d hd hin := by
    by_cases hkey : d.uri = m.key
    · obtain ⟨⟨version, text⟩, hdoc⟩ := Option.isSome_iff_exists.1 (hdocs.2 (hkey ▸ hin))
      refine ⟨version, text, ?_, hnew d hd hkey version text hdoc⟩
      rw [hkey, Replica.replay_insert hpre hpost, happly, hdoc]
    · obtain ⟨version, text, hreplay, hrest⟩ :=
        h.mirror d (hold d hd hkey) ((hother _ hkey).1 hin)
      exact ⟨version, text, (Replica.replay_insert_ne fun heq => hkey heq.symm).trans hreplay, hrest⟩

theorem Synced.append (h : Synced said docs ldocs texts lost) {doc doc' : Option (ℤ × List Char)}
    (hpre : replay m.key said = some doc) (happly : m.apply doc = some doc')
    (hdocs : doc'.isSome ↔ m.key ∈ docs') (hother : ∀ uri, uri ≠ m.key → (uri ∈ docs' ↔ uri ∈ docs))
    (hold : ∀ d ∈ ldocs', d.uri ≠ m.key → d ∈ ldocs)
    (hnew : ∀ d ∈ ldocs', d.uri = m.key → ∀ version text, doc' = some (version, text) →
      version ≤ d.version ∧ (d.changeTimeout = false → ¬ lost → text = texts d.doc)) :
    Synced (said ++ [m]) docs' ldocs' texts lost := by
  have h' : Synced (said ++ []) docs ldocs texts lost := by simpa using h
  exact h'.say hpre (by simp [Silent]) happly hdocs hother hold hnew

/-- Nothing is said, and documents change only as far as the process need not know. -/
theorem Synced.still (h : Synced said docs ldocs texts lost) {lost' : Prop}
    (hldocs : ∀ d ∈ ldocs', d.uri ∈ docs → ∃ d' ∈ ldocs, d'.uri = d.uri ∧ d'.version ≤ d.version ∧
      (d.changeTimeout = false → ¬ lost' →
        d'.changeTimeout = false ∧ ¬ lost ∧ texts' d.doc = texts d'.doc)) :
    Synced said docs ldocs' texts' lost' where
  told := h.told
  mirror d hd hin := by
    obtain ⟨d', hd', huri, hversion, hquiet⟩ := hldocs d hd hin
    obtain ⟨version, text, hreplay, hle, htext⟩ := h.mirror d' hd' (huri ▸ hin)
    refine ⟨version, text, huri ▸ hreplay, hle.trans hversion, fun htimeout hlost => ?_⟩
    obtain ⟨htimeout', hlost', heq⟩ := hquiet htimeout hlost
    exact (htext htimeout' hlost').trans heq.symm

end World

end Medit
