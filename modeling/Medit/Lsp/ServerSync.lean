import Medit.Lsp.ServerDocs

/-!
# What a language server is told

Every process is told first to initialize, and then about documents that are opened, changed, saved
and closed in this order, and what it knows of an open document is the text of the editor when it has
been flushed.

## Main definitions

* `World.Handshake` — how what is sent to a process starts.
* `World.Sane` — an event that loses no change and opens no document twice.

## Main results

* `World.docs_in_sync` — what every process is told in every run.
* `World.docs_out_of_sync` — a change that is lost, and a document that is opened twice.
-/

namespace Medit

open Replica (Silent replay)

namespace World

/-- What is sent starts with the call of `initialize`, and nothing else comes before `initialized`. -/
def Handshake (wire : List Outgoing) : Prop :=
  wire = [.initializeRequest] ∨ ∃ rest, wire = .initializeRequest :: .initialized :: rest

/-- What was sent to a process can be followed. -/
def Good (wire : List Outgoing) : Prop :=
  Handshake wire ∧ ∀ uri, (replay uri (notes wire)).isSome

/-- What the process of the server has been told or will be told from its queue. -/
def said (w : World) : List (Replica.Message Uri (List Char)) :=
  match w.state with
  | .starting => queuedNotes w.queued
  | .ready => notes (w.wires.headD [])
  | .failed => []

/-- What is said now will reach the process, if it answers. -/
def Listens (w : World) : Prop := w.state = .starting ∨ w.isReady

/-- Changes are not sent, because the process does not want them. -/
def Lost (w : World) : Prop := w.state = .ready ∧ w.syncKind = lspSyncNone

structure DocInv (w : World) : Prop where
  attached : Attached w.docs w.ldocs
  wires : ∀ wire ∈ w.wires, Good wire
  starting : w.state = .starting → w.wires.head? = some [.initializeRequest]
  ready : w.state = .ready → w.queued = [] ∧
    ∃ rest, w.wires.head? = some (.initializeRequest :: .initialized :: rest)
  synced : w.Listens → Synced w.said w.docs w.ldocs w.texts w.Lost
  unannounced : w.state = .starting → ∀ ldoc ∈ w.ldocs, ldoc.uri ∉ w.docs → Silent ldoc.uri w.said
  announced : w.isReady → w.syncKind ≠ lspSyncNone → ∀ ldoc ∈ w.ldocs, ldoc.uri ∈ w.docs

/-- The server with other documents. -/
def withDocs (w : World) (docs : List Uri) (ldocs : List LspDoc) (texts : ℕ → List Char) : World :=
  { w with docs := docs, ldocs := ldocs, texts := texts }

variable {w : World} {message : Outgoing} {m : Replica.Message Uri (List Char)} {docs : List Uri}
  {ldocs : List LspDoc} {ldoc old : LspDoc} {texts : ℕ → List Char}

theorem Handshake.append {wire : List Outgoing}
    (h : ∃ rest, wire = .initializeRequest :: .initialized :: rest) :
    ∃ rest, wire ++ [message] = .initializeRequest :: .initialized :: rest := by
  obtain ⟨rest, rfl⟩ := h
  exact ⟨rest ++ [message], rfl⟩

/-! ## Notifications -/

theorem notify_failed (h : w.state = .failed) : w.notify message = w := by simp [notify, h]

theorem notify_starting (h : w.state = .starting) :
    w.notify message = { w with queued := w.queued ++ [.notify message] } := by simp [notify, h]

theorem send_cons {wire : List Outgoing} {wires : List (List Outgoing)} (hruns : w.clientRuns)
    (hwires : w.wires = wire :: wires) :
    w.send message = { w with wires := (wire ++ [message]) :: wires } := by
  simp [send, hruns, hwires]

theorem notify_ready {wire : List Outgoing} {wires : List (List Outgoing)} (h : w.isReady)
    (hwires : w.wires = wire :: wires) :
    w.notify message = { w with wires := (wire ++ [message]) :: wires } := by
  obtain ⟨hstate, hruns⟩ : w.state = .ready ∧ w.clientRuns := by simpa [isReady] using h
  simp [notify, hstate, send_cons hruns hwires]

theorem notify_deaf (h : ¬ w.Listens) : w.notify message = w := by
  cases hstate : w.state with
  | failed => exact notify_failed hstate
  | starting => exact absurd (.inl hstate) h
  | ready =>
    have hruns : w.clientRuns = false := by
      by_contra hruns
      exact h (.inr (by simpa [isReady, hstate] using hruns))
    simp [notify, hstate, send, hruns]

/-- Nothing is said. -/
theorem DocInv.withDocs (h : DocInv w) (hattached : Attached docs ldocs)
    (hsynced : w.Listens → Synced w.said docs ldocs texts w.Lost)
    (hun : w.state = .starting → ∀ d ∈ ldocs, d.uri ∉ docs → Silent d.uri w.said)
    (hann : w.isReady → w.syncKind ≠ lspSyncNone → ∀ d ∈ ldocs, d.uri ∈ docs) :
    DocInv (w.withDocs docs ldocs texts) :=
  ⟨hattached, h.wires, h.starting, h.ready, hsynced, hun, hann⟩

/-- Something is said about a document. -/
theorem DocInv.say (h : DocInv w) (hnote : message.note = some m) (hattached : Attached docs ldocs)
    (hsynced : w.Listens → Synced (w.said ++ [m]) docs ldocs texts w.Lost)
    (hun : w.state = .starting → ∀ d ∈ ldocs, d.uri ∉ docs → Silent d.uri (w.said ++ [m]))
    (hann : w.isReady → w.syncKind ≠ lspSyncNone → ∀ d ∈ ldocs, d.uri ∈ docs) :
    DocInv ((w.notify message).withDocs docs ldocs texts) := by
  by_cases hlisten : w.Listens
  · rcases id hlisten with hstate | hready
    · have hsaid : ((w.notify message).withDocs docs ldocs texts).said = w.said ++ [m] := by
        rw [notify_starting hstate]
        simp [said, World.withDocs, hstate, queuedNotes, hnote]
      rw [notify_starting hstate] at hsaid ⊢
      refine ⟨hattached, h.wires, h.starting, ?_, ?_, ?_, hann⟩
      · intro hready
        simp [World.withDocs, hstate] at hready
      · intro _
        rw [hsaid]
        exact hsynced hlisten
      · intro _
        rw [hsaid]
        exact hun hstate
    · obtain ⟨hstate, hruns⟩ : w.state = .ready ∧ w.clientRuns := by simpa [isReady] using hready
      obtain ⟨hqueued, rest, hhead⟩ := h.ready hstate
      obtain ⟨wires, hwires⟩ : ∃ wires, w.wires = (.initializeRequest :: .initialized :: rest) :: wires := by
        cases hw : w.wires with
        | nil => simp [hw] at hhead
        | cons wire wires => exact ⟨wires, by simp_all⟩
      have hsaid : w.said ++ [m] = notes ((.initializeRequest :: .initialized :: rest) ++ [message]) := by
        rw [said, hstate, notes_append]
        simp [hwires, notes, hnote]
      rw [notify_ready hready hwires]
      refine ⟨hattached, ?_, ?_, ?_, ?_, ?_, hann⟩
      · intro wire hwire
        rcases List.mem_cons.1 hwire with rfl | hwire
        · refine ⟨.inr (Handshake.append ⟨rest, rfl⟩), fun uri => ?_⟩
          obtain ⟨doc, hdoc, -⟩ := (hsynced hlisten).told uri
          rw [← hsaid, hdoc]
          rfl
        · exact h.wires wire (hwires ▸ List.mem_cons_of_mem _ hwire)
      · intro hstart
        simp [World.withDocs, hstate] at hstart
      · exact fun _ => ⟨hqueued, rest ++ [message], rfl⟩
      · intro _
        have hnew : World.said (World.withDocs { w with
            wires := (.initializeRequest :: .initialized :: rest ++ [message]) :: wires }
            docs ldocs texts) = w.said ++ [m] := by
          rw [hsaid]
          simp [said, World.withDocs, hstate]
        rw [hnew]
        exact hsynced hlisten
      · intro hstart
        simp [World.withDocs, hstate] at hstart
  · rw [notify_deaf hlisten]
    refine h.withDocs hattached (fun hl => absurd hl hlisten) (fun hs => absurd (.inl hs) hlisten) hann

@[simp] theorem withDocs_self : w.withDocs w.docs w.ldocs w.texts = w := rfl

@[simp] theorem withDocs_withDocs {docs' : List Uri} {ldocs' : List LspDoc} {texts' : ℕ → List Char} :
    (w.withDocs docs ldocs texts).withDocs docs' ldocs' texts' = w.withDocs docs' ldocs' texts' := rfl

theorem send_withDocs : (w.withDocs docs ldocs texts).send message =
    (w.send message).withDocs docs ldocs texts := by
  unfold send
  split
  · next h => rw [if_pos (show w.clientRuns from h)]; rfl
  · next h => rw [if_neg (show ¬ w.clientRuns from h)]

theorem notify_withDocs : (w.withDocs docs ldocs texts).notify message =
    (w.notify message).withDocs docs ldocs texts := by
  cases hstate : w.state with
  | failed => rw [notify_failed hstate, notify_failed (w := w.withDocs docs ldocs texts) hstate]
  | starting =>
    rw [notify_starting hstate, notify_starting (w := w.withDocs docs ldocs texts) hstate]
    rfl
  | ready =>
    simp only [notify, hstate, show (w.withDocs docs ldocs texts).state = .ready from hstate]
    exact send_withDocs

theorem notify_self : (w.notify message).withDocs w.docs w.ldocs w.texts = w.notify message := by
  rw [← notify_withDocs, withDocs_self]

/-! ## Events of documents -/

theorem findDoc_some {doc : ℕ} (h : w.findDoc doc = some ldoc) : ldoc ∈ w.ldocs ∧ ldoc.doc = doc :=
  ⟨List.mem_of_find?_eq_some h, by simpa using List.find?_some h⟩

theorem findDoc_none {doc : ℕ} (h : w.findDoc doc = none) : ∀ d ∈ w.ldocs, d.doc ≠ doc := by
  simpa [findDoc] using h

theorem setDoc_eq : w.setDoc ldoc = w.withDocs w.docs (replaceDoc w.ldocs ldoc) w.texts := rfl

/-- A document that the server does not have is opened. -/
theorem lspDocOpen_eq (huri : ldoc.uri ∉ w.docs) :
    w.lspDocOpen ldoc =
      if w.syncKind = lspSyncNone ∧ w.state = .ready then
        w.withDocs w.docs (replaceDoc w.ldocs { ldoc with version := 1, opened := true }) w.texts
      else
        (w.notify (.didOpen ldoc.uri 1 (w.texts ldoc.doc))).withDocs (ldoc.uri :: w.docs)
          (replaceDoc w.ldocs { ldoc with version := 1, opened := true }) w.texts := by
  unfold lspDocOpen lspServerDidOpen
  rw [if_neg huri, if_neg huri]
  split
  · rfl
  · rw [show ({ w with docs := ldoc.uri :: w.docs } : World) =
      w.withDocs (ldoc.uri :: w.docs) w.ldocs w.texts from rfl, notify_withDocs]
    rfl

theorem silent_append (h : Silent ldoc.uri w.said) (hm : m.key ≠ ldoc.uri) :
    Silent ldoc.uri (w.said ++ [m]) := by
  intro n hn
  rcases List.mem_append.1 hn with hn | hn
  · exact h n hn
  · rwa [List.mem_singleton.1 hn]

theorem docInv_addDoc (h : DocInv w) {doc : ℕ} {uri : Uri}
    (hsane : ∀ d ∈ w.ldocs, d.uri = uri → d.doc = doc) : DocInv (w.addDoc doc uri) := by
  unfold addDoc
  split
  · exact h
  · next hnone =>
    have hdoc := findDoc_none hnone
    have huri : ∀ d ∈ w.ldocs, d.uri ≠ uri := fun d hd heq => hdoc d hd (hsane d hd heq)
    have hdocs : uri ∉ w.docs := fun hin => by
      obtain ⟨d, hd, heq, -⟩ := h.attached.docs_open uri hin
      exact huri d hd heq
    set new : LspDoc := ⟨doc, uri, 1, true, false⟩
    have hreplace : replaceDoc (⟨doc, uri, 0, false, false⟩ :: w.ldocs) new = new :: w.ldocs := by
      rw [replaceDoc, List.map_cons, if_pos rfl]
      congr 1
      exact (List.map_congr_left fun d hd => if_neg (hdoc d hd)).trans (List.map_id _)
    have hattached : ∀ docs', (∀ u ∈ docs', u ∈ w.docs ∨ u = uri) → Attached docs' (new :: w.ldocs) := by
      refine fun docs' hsub => ⟨fun u hu => ?_, ?_, ?_⟩
      · rcases hsub u hu with hu | rfl
        · obtain ⟨d, hd, heq, hopen⟩ := h.attached.docs_open u hu
          exact ⟨d, List.mem_cons_of_mem _ hd, heq, hopen⟩
        · exact ⟨new, by simp, rfl, rfl⟩
      · rw [List.map_cons, List.nodup_cons]
        exact ⟨fun hin => by obtain ⟨d, hd, heq⟩ := List.mem_map.1 hin; exact hdoc d hd heq,
          h.attached.nodup_docs⟩
      · rw [List.map_cons, List.nodup_cons]
        exact ⟨fun hin => by obtain ⟨d, hd, heq⟩ := List.mem_map.1 hin; exact huri d hd heq,
          h.attached.nodup_uris⟩
    change DocInv ((w.withDocs w.docs (⟨doc, uri, 0, false, false⟩ :: w.ldocs) w.texts).lspDocOpen
      ⟨doc, uri, 0, false, false⟩)
    rw [lspDocOpen_eq (w := w.withDocs w.docs (⟨doc, uri, 0, false, false⟩ :: w.ldocs) w.texts) hdocs]
    simp only [notify_withDocs, withDocs_withDocs]
    rw [show replaceDoc (w.withDocs w.docs (⟨doc, uri, 0, false, false⟩ :: w.ldocs) w.texts).ldocs _ = _
      from hreplace]
    split
    · next hlost =>
      obtain ⟨hnone, hstate⟩ : w.syncKind = lspSyncNone ∧ w.state = .ready := hlost
      refine h.withDocs (hattached _ fun _ => .inl) (fun hl => ?_) (fun hs => ?_) fun _ hne => ?_
      · refine (h.synced hl).still fun d hd hin => ?_
        rcases List.mem_cons.1 hd with rfl | hd
        · exact absurd hin hdocs
        · exact ⟨d, hd, rfl, le_rfl, fun ht hl => ⟨ht, hl, rfl⟩⟩
      · rw [hstate] at hs
        cases hs
      · exact absurd hnone hne
    · refine h.say (m := .opened uri 1 (w.texts doc)) rfl (hattached _ ?_) (fun hl => ?_)
        (fun hs d hd hin => ?_) fun hr hne d hd => ?_
      · exact fun u hu => (List.mem_cons.1 hu).symm
      · obtain ⟨old, hold, hiff⟩ := (h.synced hl).told uri
        obtain rfl : old = none := by
          rcases old with _ | old
          · rfl
          · exact absurd (hiff.1 rfl) hdocs
        refine (h.synced hl).append hold rfl (by simp [Replica.Message.key]) ?_ ?_ ?_
        · intro u hu
          have hne : u ≠ uri := hu
          exact List.mem_cons.trans (or_iff_right hne)
        · intro d hd hne
          exact (List.mem_cons.1 hd).resolve_left fun heq => hne (heq ▸ rfl)
        · intro d hd heq version text hdoc'
          obtain ⟨rfl, rfl⟩ := Prod.mk.inj (Option.some.inj hdoc')
          rcases List.mem_cons.1 hd with rfl | hd
          · exact ⟨le_rfl, fun _ _ => rfl⟩
          · exact absurd heq (huri d hd)
      · rcases List.mem_cons.1 hd with rfl | hd
        · exact absurd List.mem_cons_self hin
        · have hne : d.uri ≠ uri := huri d hd
          refine silent_append (h.unannounced hs d hd fun hin' => hin (List.mem_cons_of_mem _ hin')) ?_
          exact fun heq => hne heq.symm
      · rcases List.mem_cons.1 hd with rfl | hd
        · exact List.mem_cons_self
        · exact List.mem_cons_of_mem _ (h.announced hr hne d hd)

/-- The version of a document goes up and its timeout is off, and nothing is said. -/
theorem docInv_unsaid (h : DocInv w) (hold : old ∈ w.ldocs) (text : ℕ → List Char) {version : ℤ}
    {timeout : Bool} (hversion : old.version ≤ version)
    (htext : ∀ d ∈ w.ldocs, d.doc ≠ old.doc → text d.doc = w.texts d.doc)
    (hquiet : w.Listens → old.uri ∈ w.docs → timeout = false → ¬ w.Lost →
      old.changeTimeout = false ∧ text old.doc = w.texts old.doc) :
    DocInv (w.withDocs w.docs
      (replaceDoc w.ldocs { old with version := version, changeTimeout := timeout }) text) := by
  set ldoc : LspDoc := { old with version := version, changeTimeout := timeout }
  have hmem : ∀ d ∈ replaceDoc w.ldocs ldoc, ∃ d' ∈ w.ldocs, d'.uri = d.uri := fun d hd => by
    rcases mem_replaceDoc hd with rfl | ⟨hd, -⟩
    · exact ⟨old, hold, rfl⟩
    · exact ⟨d, hd, rfl⟩
  refine h.withDocs (h.attached.replace hold rfl rfl id fun _ => .inl) (fun hl => ?_)
    (fun hs d hd hin => ?_) fun hr hne d hd => ?_
  · refine (h.synced hl).still fun d hd hin => ?_
    rcases mem_replaceDoc hd with rfl | ⟨hd, hne⟩
    · refine ⟨old, hold, rfl, hversion, fun ht hlost => ?_⟩
      obtain ⟨htimeout, heq⟩ := hquiet hl hin ht hlost
      exact ⟨htimeout, hlost, heq⟩
    · exact ⟨d, hd, rfl, le_rfl, fun ht hlost => ⟨ht, hlost, htext d hd hne⟩⟩
  · obtain ⟨d', hd', heq⟩ := hmem d hd
    exact heq ▸ h.unannounced hs d' hd' (heq ▸ hin)
  · obtain ⟨d', hd', heq⟩ := hmem d hd
    exact heq ▸ h.announced hr hne d' hd'

/-- A change is sent. -/
theorem docInv_change (h : DocInv w) (hold : old ∈ w.ldocs) (huri : old.uri ∈ w.docs) :
    DocInv ((w.notify (.didChange old.uri (old.version + 1) (w.texts old.doc))).withDocs w.docs
      (replaceDoc w.ldocs { old with version := old.version + 1, changeTimeout := false })
      w.texts) := by
  set ldoc : LspDoc := { old with version := old.version + 1, changeTimeout := false }
  refine h.say (m := .changed old.uri (old.version + 1) (w.texts old.doc)) rfl
    (h.attached.replace hold rfl rfl id fun _ => .inl) (fun hl => ?_)
    (fun hs d hd hin => ?_) fun hr hne d hd => ?_
  · obtain ⟨version, text, hreplay, hle, -⟩ := (h.synced hl).mirror old hold huri
    have happly : (Replica.Message.changed old.uri (old.version + 1) (w.texts old.doc)).apply
        (some (version, text)) = some (some (old.version + 1, w.texts old.doc)) :=
      if_pos (by omega)
    refine (h.synced hl).append hreplay happly (by simpa [Replica.Message.key] using huri) (by simp)
      (fun d hd hne => ?_) fun d hd heq version' text' hdoc => ?_
    · rcases mem_replaceDoc hd with rfl | ⟨hd, -⟩
      · exact absurd rfl hne
      · exact hd
    · obtain ⟨rfl, rfl⟩ := Prod.mk.inj (Option.some.inj hdoc)
      rcases mem_replaceDoc hd with rfl | ⟨hd, hne⟩
      · exact ⟨le_rfl, fun _ _ => rfl⟩
      · exact absurd (congrArg LspDoc.doc (h.attached.uri_inj hd hold heq)) hne
  · rcases mem_replaceDoc hd with rfl | ⟨hd, hne⟩
    · exact absurd huri hin
    · refine silent_append (h.unannounced hs d hd hin) fun heq => hin ?_
      have heq : old.uri = d.uri := heq
      exact heq ▸ huri
  · rcases mem_replaceDoc hd with rfl | ⟨hd, hne'⟩
    · exact huri
    · exact h.announced hr hne d hd

/-- A change of the document that is sent now would be dropped, though the process may want it. -/
def LosesChange (w : World) (ldoc : LspDoc) : Prop :=
  w.state = .starting ∧ w.syncKind = lspSyncNone ∧ ldoc.opened ∧ ldoc.uri ∈ w.docs

theorem docInv_sendDidChange (h : DocInv w) (hold : old ∈ w.ldocs) (hsane : ¬ w.LosesChange old) :
    DocInv (w.sendDidChange old) := by
  unfold sendDidChange
  split
  · next hopened =>
    unfold lspServerDidChange
    split
    · next huri =>
      exact docInv_unsaid h hold w.texts (by omega) (fun _ _ _ => rfl) fun _ hin => absurd hin huri
    · next huri =>
      have hin : old.uri ∈ w.docs := not_not.1 huri
      split
      · next hnone =>
        refine docInv_unsaid h hold w.texts (by omega) (fun _ _ _ => rfl) fun hl _ _ hlost => ?_
        rcases hl with hstart | hready
        · exact absurd ⟨hstart, hnone, hopened, hin⟩ hsane
        · have hstate : w.state = .ready := by
            have := hready
            simp only [isReady, Bool.and_eq_true, beq_iff_eq] at this
            exact this.1
          exact absurd ⟨hstate, hnone⟩ hlost
      · rw [setDoc_eq]
        have hchange := docInv_change h hold hin
        rw [← notify_self] at hchange ⊢
        exact hchange
  · next hopened =>
    exact docInv_unsaid h hold w.texts le_rfl (fun _ _ _ => rfl) fun _ hin =>
      absurd (h.attached.opened hold hin) hopened

theorem docInv_lspDocFlush (h : DocInv w) (hold : old ∈ w.ldocs)
    (hsane : old.changeTimeout → ¬ w.LosesChange old) : DocInv (w.lspDocFlush old) := by
  unfold lspDocFlush
  split
  · next ht => exact docInv_sendDidChange h hold (hsane ht)
  · exact h

theorem docInv_lspServerDidSave (h : DocInv w) {uri : Uri} {text : List Char} :
    DocInv (w.lspServerDidSave uri text) := by
  unfold lspServerDidSave
  split
  · exact h
  · next huri =>
    have hin : uri ∈ w.docs := not_not.1 huri
    rw [← notify_self]
    refine h.say (m := .saved uri) rfl h.attached (fun hl => ?_) (fun hs d hd hout => ?_) h.announced
    · obtain ⟨doc, hreplay, hiff⟩ := (h.synced hl).told uri
      obtain ⟨⟨version, text⟩, rfl⟩ := Option.isSome_iff_exists.1 (hiff.2 hin)
      refine (h.synced hl).append (m := .saved uri) hreplay rfl (by simpa [Replica.Message.key] using hin)
        (by simp) (fun d hd _ => hd) fun d hd heq version' text' hdoc => ?_
      obtain ⟨rfl, rfl⟩ := Prod.mk.inj (Option.some.inj hdoc)
      have heq : d.uri = uri := heq
      obtain ⟨version', text', hreplay', hrest⟩ := (h.synced hl).mirror d hd (heq ▸ hin)
      rw [heq, hreplay] at hreplay'
      obtain ⟨rfl, rfl⟩ := Prod.mk.inj (Option.some.inj (Option.some.inj hreplay'))
      exact hrest
    · refine silent_append (h.unannounced hs d hd hout) fun heq => hout ?_
      have heq : uri = d.uri := heq
      exact heq ▸ hin

theorem docInv_docSaved (h : DocInv w) (hold : old ∈ w.ldocs)
    (hsane : old.changeTimeout → ¬ w.LosesChange old) : DocInv (w.docSaved old) := by
  unfold docSaved
  split
  · exact docInv_lspServerDidSave (docInv_lspDocFlush h hold hsane)
  · exact h

theorem docInv_removeDoc (h : DocInv w) {doc : ℕ} : DocInv (w.removeDoc doc) := by
  unfold removeDoc
  split
  · exact h
  · next old hfind =>
    obtain ⟨hold, hdoc⟩ := findDoc_some hfind
    have hmem : ∀ d ∈ w.ldocs.filter (·.doc ≠ doc), d ∈ w.ldocs ∧ d.uri ≠ old.uri := fun d hd => by
      obtain ⟨hd, hne⟩ := List.mem_filter.1 hd
      refine ⟨hd, fun heq => ?_⟩
      obtain rfl := h.attached.uri_inj hd hold heq
      simp [hdoc] at hne
    have hquiet : old.uri ∉ w.docs →
        DocInv (w.withDocs w.docs (w.ldocs.filter (·.doc ≠ doc)) w.texts) := fun hout => by
      refine h.withDocs (h.attached.filter fun uri hin => ⟨hin, fun d hd heq huri => ?_⟩) (fun hl => ?_)
        (fun hs d hd hin => h.unannounced hs d (hmem d hd).1 hin) fun hr hne d hd =>
          h.announced hr hne d (hmem d hd).1
      · rw [h.attached.doc_inj hd hold (heq.trans hdoc.symm)] at huri
        exact hout (huri ▸ hin)
      · exact (h.synced hl).still fun d hd _ =>
          ⟨d, (hmem d hd).1, rfl, le_rfl, fun ht hlost => ⟨ht, hlost, rfl⟩⟩
    split
    · unfold lspServerDidClose
      split
      · next hout => exact hquiet hout
      · next hin =>
        have hin : old.uri ∈ w.docs := not_not.1 hin
        change DocInv ((w.withDocs (w.docs.filter (· ≠ old.uri)) (w.ldocs.filter (·.doc ≠ doc))
          w.texts).notify (.didClose old.uri))
        rw [notify_withDocs]
        refine h.say (m := .closed old.uri) rfl (h.attached.filter fun uri huri => ?_) (fun hl => ?_)
          (fun hs d hd hout => ?_) fun hr hne d hd => ?_
        · obtain ⟨huri, hne⟩ := List.mem_filter.1 huri
          refine ⟨huri, fun d hd heq heq' => ?_⟩
          rw [h.attached.doc_inj hd hold (heq.trans hdoc.symm)] at heq'
          simp [heq'] at hne
        · obtain ⟨doc', hreplay, hiff⟩ := (h.synced hl).told old.uri
          obtain ⟨known, rfl⟩ := Option.isSome_iff_exists.1 (hiff.2 hin)
          refine (h.synced hl).append (m := .closed old.uri) hreplay rfl (by simp [Replica.Message.key]) ?_
            (fun d hd _ => (hmem d hd).1) fun d hd heq => absurd heq (hmem d hd).2
          intro uri hne
          have hne : uri ≠ old.uri := hne
          simp [hne]
        · obtain ⟨hd, hne⟩ := hmem d hd
          refine silent_append (h.unannounced hs d hd fun hin' => hout ?_) fun heq => hne heq.symm
          exact List.mem_filter.2 ⟨hin', by simpa using hne⟩
        · obtain ⟨hd, hne'⟩ := hmem d hd
          exact List.mem_filter.2 ⟨h.announced hr hne d hd, by simpa using hne'⟩
    · next hclosed =>
      exact hquiet fun hin => hclosed (h.attached.opened hold hin)

/-- The text of a document that the server does not have is another one. -/
theorem docInv_setText (h : DocInv w) {doc : ℕ} {text : List Char}
    (hunseen : ∀ d ∈ w.ldocs, d.uri ∈ w.docs → d.doc ≠ doc) : DocInv (w.setText doc text) := by
  refine h.withDocs h.attached (fun hl => ?_) h.unannounced h.announced
  refine (h.synced hl).still fun d hd hin => ⟨d, hd, rfl, le_rfl, fun ht hlost => ⟨ht, hlost, ?_⟩⟩
  exact Function.update_of_ne (hunseen d hd hin) _ _

theorem docInv_bufferChanged (h : DocInv w) {doc : ℕ} {text : List Char} :
    DocInv ((w.setText doc text).withDoc doc bufferChanged) := by
  unfold withDoc
  split
  · next old hfind =>
    obtain ⟨hold, hdoc⟩ := findDoc_some (w := w) hfind
    unfold bufferChanged
    split
    · refine docInv_unsaid h hold (w.setText doc text).texts le_rfl (fun d _ hne => ?_) (by simp)
      exact Function.update_of_ne (hdoc ▸ hne) _ _
    · next hclosed =>
      refine docInv_setText h fun d hd hin heq => hclosed ?_
      exact h.attached.doc_inj hd hold (heq.trans hdoc.symm) ▸ h.attached.opened hd hin
  · next hfind => exact docInv_setText h fun d hd _ => findDoc_none (w := w) hfind d hd

/-! ## Failing and starting -/

/-- Documents that no process knows. -/
theorem Attached.forget (h : Attached docs ldocs) : Attached [] ldocs :=
  ⟨by simp, h.nodup_docs, h.nodup_uris⟩

theorem setState_eq {state : LspServerState} (hstate : state ≠ .ready) :
    w.setState state = { w with state := state } := by
  unfold setState
  split
  · next h => rw [← h]
  · have hidle : ({ w with state := state } : World).isReady = false := by simp [isReady, hstate]
    rw [serverStateChanged, hidle]
    rfl

theorem docInv_setFailed (hattached : Attached docs w.ldocs) (hwires : ∀ wire ∈ w.wires, Good wire) :
    DocInv w.setFailed := by
  unfold setFailed
  rw [setState_eq (by simp)]
  refine ⟨hattached.forget, hwires, by simp, by simp, ?_, by simp, by simp [isReady]⟩
  rintro (h | h)
  · cases h
  · simp [isReady] at h

theorem DocInv.setFailed (h : DocInv w) : DocInv w.setFailed :=
  docInv_setFailed h.attached h.wires

/-- The client has stopped, or has other calls. -/
theorem DocInv.client (h : DocInv w) {client : Option (Client ServerCall)}
    (hruns : ({ w with client := client } : World).clientRuns → w.clientRuns) :
    DocInv { w with client := client } := by
  have hready : ({ w with client := client } : World).isReady → w.isReady := fun hr => by
    simp only [isReady, Bool.and_eq_true] at hr ⊢
    exact ⟨hr.1, hruns hr.2⟩
  exact ⟨h.attached, h.wires, h.starting, h.ready, fun hl => h.synced (hl.imp id hready),
    h.unannounced, fun hr => h.announced (hready hr)⟩

theorem DocInv.elsewhere (h : DocInv w) {log : List Calls.Note} {todo : List Todo}
    {made : List Calls.Call} {initTimeout : Bool} {initTimeouts quickExits row : ℕ} :
    DocInv { w with
      log := log
      todo := todo
      made := made
      initTimeout := initTimeout
      initTimeouts := initTimeouts
      quickExits := quickExits
      row := row } :=
  ⟨h.attached, h.wires, h.starting, h.ready, h.synced, h.unannounced, h.announced⟩

theorem DocInv.stopInitTimeout (h : DocInv w) : DocInv w.stopInitTimeout := by
  unfold World.stopInitTimeout
  split
  · exact h.elsewhere
  · exact h

theorem DocInv.refuseCall (h : DocInv w) {call : ServerCall} : DocInv (w.refuseCall call) := by
  cases call with
  | initializeCall => exact h.stopInitTimeout.setFailed
  | user call => exact h.elsewhere
  | shutdown => exact h

theorem DocInv.foldl (h : DocInv w) {entries : List (ℤ × ServerCall)} :
    DocInv (entries.foldl (fun w entry => w.refuseCall entry.2) w) := by
  induction entries generalizing w with
  | nil => exact h
  | cons entry entries ih => exact ih h.refuseCall

theorem DocInv.failPendingCalls (h : DocInv w) : DocInv w.failPendingCalls := by
  unfold World.failPendingCalls
  split
  · exact h
  · next client hclient =>
    refine DocInv.foldl (h.client fun hruns => ?_)
    simpa [clientRuns, hclient, Client.isRunning, Client.stealAll] using hruns

theorem DocInv.disconnect (h : DocInv w) : DocInv w.disconnect := by
  unfold World.disconnect
  split
  · exact h
  · split
    · exact h
    · refine DocInv.failPendingCalls (h.client fun hruns => ?_)
      simp [clientRuns, Client.isRunning] at hruns

theorem DocInv.startDrop (h : DocInv w) : DocInv w.startDrop := by
  unfold World.startDrop
  split
  · exact h
  · exact h.disconnect.elsewhere

/-- A process is started for documents that it does not know. -/
theorem docInv_startProcess (hstate : w.state = .starting) (hdocs : w.docs = [])
    (hqueued : w.queued = []) (hattached : Attached [] w.ldocs)
    (hwires : ∀ wire ∈ w.wires, Good wire) (hidle : ∀ client ∈ w.client, client.pending = [])
    {spawns : Bool} : DocInv (w.startProcess spawns) := by
  have hdrop : w.dropClient = { w with client := none } := by
    unfold dropClient World.disconnect
    split
    · rfl
    · next client hclient =>
      split
      · rfl
      · simp only [World.failPendingCalls, hidle client hclient, List.foldl_nil]
  unfold startProcess
  simp only [hdrop]
  cases spawns with
  | false => exact docInv_setFailed hattached hwires
  | true =>
    have hgood : Good [.initializeRequest] := ⟨.inl rfl, fun _ => rfl⟩
    simp only [if_true, sendInitialize, callClient, Client.new, Client.isRunning, Bool.not_false,
      Bool.and_self, send, clientRuns, Option.any_some, Client.insert]
    refine ⟨?_, ?_, fun _ => rfl, ?_, fun _ => ⟨fun uri => ?_, ?_⟩, ?_, ?_⟩
    · simpa [hdocs] using hattached
    · intro wire hwire
      rcases List.mem_cons.1 hwire with rfl | hwire
      · exact hgood
      · exact hwires wire hwire
    · intro hready
      simp [hstate] at hready
    · refine ⟨none, ?_, by simp [hdocs]⟩
      simp [said, hstate, hqueued, queuedNotes, replay, Replica.replayFrom]
    · intro d hd hin
      simp [hdocs] at hin
    · intro _ d hd _
      simp [said, hstate, hqueued, queuedNotes, Silent]
    · intro hready
      simp [isReady, hstate] at hready

theorem docInv_clientExited (h : DocInv w) (hidle : ∀ client ∈ w.client, client.pending = [])
    {quick spawns : Bool} : DocInv (w.clientExited quick spawns) := by
  unfold clientExited
  split
  · exact h
  · split
    · exact docInv_setFailed h.attached h.wires
    · unfold restart
      rw [setState_eq (by simp)]
      refine docInv_startProcess ?_ ?_ ?_ ?_ ?_ ?_
      exacts [rfl, rfl, rfl, h.attached.forget, h.wires, hidle]

/-! ## Getting ready -/

/-- A server that is ready, with a queue that is still to be sent: what its process has been told is
in the first of its wires. -/
structure Flushing (w : World) (queued : List Queued) (rest : List Outgoing)
    (wires : List (List Outgoing)) : Prop where
  ready : w.isReady
  head : w.wires = (.initializeRequest :: .initialized :: rest) :: wires
  attached : Attached w.docs w.ldocs
  wires_good : ∀ wire ∈ wires, Good wire
  synced : Synced (notes rest ++ queuedNotes queued) w.docs w.ldocs w.texts w.Lost

variable {queued : List Queued} {rest : List Outgoing} {wires : List (List Outgoing)}

theorem Flushing.send (h : Flushing w queued rest wires) :
    w.send message =
      { w with wires := (.initializeRequest :: .initialized :: (rest ++ [message])) :: wires } := by
  have hready := h.ready
  simp only [isReady, Bool.and_eq_true] at hready
  exact send_cons hready.2 h.head

/-- One message of the queue is sent, or a call that says nothing about documents. -/
theorem Flushing.next {q : Queued} (h : Flushing w (q :: queued) rest wires) :
    ∃ rest', Flushing (w.sendQueued q) queued rest' wires ∧
      (w.sendQueued q).ldocs = w.ldocs ∧ (w.sendQueued q).docs = w.docs ∧
      (w.sendQueued q).texts = w.texts ∧ (w.sendQueued q).syncKind = w.syncKind ∧
      (w.sendQueued q).queued = w.queued := by
  cases q with
  | call call =>
    obtain ⟨hstate, hruns⟩ : w.state = .ready ∧ w.clientRuns := by simpa [isReady] using h.ready
    obtain ⟨client, hclient, hrun⟩ := (Option.any_eq_true _ _).1 hruns
    have hinsert : Flushing { w with client := some (client.insert (.user call)) } (.call call :: queued)
        rest wires := by
      refine ⟨?_, h.head, h.attached, h.wires_good, h.synced⟩
      have hrun' : (client.insert (.user call)).isRunning := hrun
      simp [isReady, hstate, clientRuns, hrun']
    have hsend : w.sendQueued (.call call) =
        ({ w with client := some (client.insert (.user call)) } : World).send (.request call.ticket) := by
      simp [sendQueued, callClient, hclient, hrun]
    rw [hsend, hinsert.send]
    refine ⟨rest ++ [.request call.ticket], ⟨hinsert.ready, rfl, h.attached, h.wires_good, ?_⟩, rfl,
      rfl, rfl, rfl, rfl⟩
    have heq : notes (rest ++ [.request call.ticket]) ++ queuedNotes queued =
        notes rest ++ queuedNotes (.call call :: queued) := by
      simp [notes, queuedNotes, Outgoing.note]
    change Synced (notes (rest ++ [.request call.ticket]) ++ queuedNotes queued) w.docs w.ldocs
      w.texts w.Lost
    rw [heq]
    exact h.synced
  | notify message =>
    have hsend : w.sendQueued (.notify message) = w.send message := rfl
    rw [hsend, h.send]
    refine ⟨rest ++ [message], ⟨h.ready, rfl, h.attached, h.wires_good, ?_⟩, rfl, rfl, rfl, rfl, rfl⟩
    have heq : notes (rest ++ [message]) ++ queuedNotes queued =
        notes rest ++ queuedNotes (.notify message :: queued) := by
      cases hnote : message.note <;> simp [notes, queuedNotes, hnote]
    change Synced (notes (rest ++ [message]) ++ queuedNotes queued) w.docs w.ldocs w.texts w.Lost
    rw [heq]
    exact h.synced

theorem Flushing.foldl (h : Flushing w queued rest wires)
    (hann : w.syncKind ≠ lspSyncNone → ∀ d ∈ w.ldocs, d.uri ∈ w.docs) (hqueued : w.queued = []) :
    DocInv (queued.foldl sendQueued w) := by
  induction queued generalizing w rest with
  | nil =>
    change DocInv w
    have hstate : w.state = .ready := by
      have := h.ready
      simp only [isReady, Bool.and_eq_true, beq_iff_eq] at this
      exact this.1
    have hsynced : Synced (notes rest) w.docs w.ldocs w.texts w.Lost := by
      simpa [queuedNotes] using h.synced
    refine ⟨h.attached, ?_, ?_, fun _ => ⟨hqueued, rest, by simp [h.head]⟩, fun _ => ?_, ?_, fun _ => hann⟩
    · rw [h.head]
      intro wire hwire
      rcases List.mem_cons.1 hwire with rfl | hwire
      · refine ⟨.inr ⟨rest, rfl⟩, fun uri => ?_⟩
        obtain ⟨doc, hdoc, -⟩ := hsynced.told uri
        exact Option.isSome_iff_exists.2 ⟨doc, hdoc⟩
      · exact h.wires_good wire hwire
    · simp [hstate]
    · rw [said, hstate, h.head]
      exact hsynced
    · simp [hstate]
  | cons q queued ih =>
    obtain ⟨rest', hnext, hldocs, hdocs, -, hkind, hq⟩ := h.next
    refine ih hnext (fun hne d hd => ?_) (hq.trans hqueued)
    rw [hdocs]
    exact hann (hkind ▸ hne) d (hldocs ▸ hd)

/-- The documents in `todo` are still to be opened by a server that has just become ready. -/
structure Opening (w : World) (todo : List LspDoc) (rest : List Outgoing)
    (wires : List (List Outgoing)) : Prop where
  flushing : Flushing w w.queued rest wires
  unannounced : ∀ d ∈ w.ldocs, d.uri ∉ w.docs → Silent d.uri (notes rest ++ queuedNotes w.queued)
  pending : ∀ d ∈ todo, d ∈ w.ldocs
  nodup : (todo.map (·.doc)).Nodup
  done : w.syncKind ≠ lspSyncNone → ∀ d ∈ w.ldocs, d.uri ∈ w.docs ∨ d ∈ todo

theorem Silent.left (h : Silent ldoc.uri (notes rest ++ queuedNotes queued)) :
    Silent ldoc.uri (notes rest) ∧ Silent ldoc.uri (queuedNotes queued) :=
  ⟨fun m hm => h m (List.mem_append_left _ hm), fun m hm => h m (List.mem_append_right _ hm)⟩

theorem Opening.next {todo : List LspDoc} (h : Opening w (ldoc :: todo) rest wires) :
    ∃ rest', Opening (w.lspDocOpen ldoc) todo rest' wires := by
  have hmem := h.pending ldoc (by simp)
  obtain ⟨hfirst, hnodup⟩ := List.nodup_cons.1 h.nodup
  have hlater : ∀ d ∈ todo, d.doc ≠ ldoc.doc := fun d hd heq =>
    hfirst (List.mem_map.2 ⟨d, hd, heq⟩)
  by_cases hin : ldoc.uri ∈ w.docs
  · refine ⟨rest, ?_⟩
    rw [lspDocOpen, if_pos hin]
    refine ⟨h.flushing, h.unannounced, fun d hd => h.pending d (List.mem_cons_of_mem _ hd), hnodup,
      fun hne d hd => ?_⟩
    rcases h.done hne d hd with hd | hd
    · exact .inl hd
    · rcases List.mem_cons.1 hd with rfl | hd
      · exact .inl hin
      · exact .inr hd
  · obtain ⟨hstate, hruns⟩ : w.state = .ready ∧ w.clientRuns := by
      simpa [isReady] using h.flushing.ready
    set new : LspDoc := { ldoc with version := 1, opened := true }
    have hpending : ∀ d ∈ todo, d ∈ replaceDoc w.ldocs new := fun d hd =>
      mem_replaceDoc_of_ne (h.pending d (List.mem_cons_of_mem _ hd)) (hlater d hd)
    have huris : ∀ d ∈ replaceDoc w.ldocs new, d = new ∨ d ∈ w.ldocs ∧ d.uri ≠ ldoc.uri :=
      fun d hd => (mem_replaceDoc hd).imp id fun ⟨hd, hne⟩ => by
        refine ⟨hd, fun heq => hne ?_⟩
        have hsame : d = ldoc := h.flushing.attached.uri_inj hd hmem heq
        rw [hsame]
    rw [lspDocOpen_eq hin]
    split
    · next hlost =>
      refine ⟨rest, ⟨⟨h.flushing.ready, h.flushing.head, ?_, h.flushing.wires_good, ?_⟩, ?_, hpending,
        hnodup, fun hne => absurd hlost.1 hne⟩⟩
      · exact h.flushing.attached.replace hmem rfl rfl (fun _ => rfl) fun _ => .inl
      · refine h.flushing.synced.still fun d hd hd' => ?_
        rcases huris d hd with rfl | ⟨hd, -⟩
        · exact absurd hd' hin
        · exact ⟨d, hd, rfl, le_rfl, fun ht hl => ⟨ht, hl, rfl⟩⟩
      · intro d hd hd'
        rcases huris d hd with rfl | ⟨hd, -⟩
        · exact h.unannounced ldoc hmem hin
        · exact h.unannounced d hd hd'
    · obtain ⟨hsilent, hqueue⟩ := Silent.left (h.unannounced ldoc hmem hin)
      set message : Outgoing := .didOpen ldoc.uri 1 (w.texts ldoc.doc)
      set m : Replica.Message Uri (List Char) := .opened ldoc.uri 1 (w.texts ldoc.doc)
      have hsaid : notes (rest ++ [message]) ++ queuedNotes w.queued =
          notes rest ++ m :: queuedNotes w.queued := by
        rw [notes_append, List.append_assoc]
        rfl
      have hnotify : w.notify message = w.send message := by simp [notify, hstate]
      rw [hnotify, h.flushing.send]
      refine ⟨rest ++ [message], ⟨⟨h.flushing.ready, rfl, ?_, h.flushing.wires_good, ?_⟩, ?_, hpending,
        hnodup, ?_⟩⟩
      · refine h.flushing.attached.replace hmem rfl rfl (fun _ => rfl) fun u hu => ?_
        exact (List.mem_cons.1 hu).symm.imp id fun heq => ⟨heq, rfl⟩
      · change Synced (notes (rest ++ [message]) ++ queuedNotes w.queued) (ldoc.uri :: w.docs)
          (replaceDoc w.ldocs new) w.texts w.Lost
        rw [hsaid]
        have hpre : replay m.key (notes rest) = some none := Replica.replayFrom_of_silent hsilent
        refine h.flushing.synced.say hpre hqueue rfl (by simp [m, Replica.Message.key]) (fun u hu => ?_)
          (fun d hd hne => ?_) fun d hd heq version text hdoc => ?_
        · have hne : u ≠ ldoc.uri := hu
          exact List.mem_cons.trans (or_iff_right hne)
        · exact ((huris d hd).resolve_left fun heq => hne (heq ▸ rfl)).1
        · obtain ⟨rfl, rfl⟩ := Prod.mk.inj (Option.some.inj hdoc)
          rcases huris d hd with rfl | ⟨-, hne⟩
          · exact ⟨le_rfl, fun _ _ => rfl⟩
          · exact absurd heq hne
      · intro d hd hd'
        rcases huris d hd with rfl | ⟨hd, hne⟩
        · exact absurd List.mem_cons_self hd'
        · change Silent d.uri (notes (rest ++ [message]) ++ queuedNotes w.queued)
          rw [hsaid]
          have hold := h.unannounced d hd fun hin' => hd' (List.mem_cons_of_mem _ hin')
          intro n hn
          rcases List.mem_append.1 hn with hn | hn
          · exact hold n (List.mem_append_left _ hn)
          · rcases List.mem_cons.1 hn with rfl | hn
            · exact fun heq => hne heq.symm
            · exact hold n (List.mem_append_right _ hn)
      · intro hne d hd
        rcases huris d hd with rfl | ⟨hd, hne'⟩
        · exact .inl List.mem_cons_self
        · rcases h.done hne d hd with hd | hd
          · exact .inl (List.mem_cons_of_mem _ hd)
          · exact .inr ((List.mem_cons.1 hd).resolve_left fun heq => hne' (heq ▸ rfl))

theorem Opening.foldl {todo : List LspDoc} (h : Opening w todo rest wires) :
    ∃ rest', Opening (todo.foldl lspDocOpen w) [] rest' wires := by
  induction todo generalizing w rest with
  | nil => exact ⟨rest, h⟩
  | cons ldoc todo ih =>
    obtain ⟨rest', hnext⟩ := h.next
    exact ih hnext

/-- The queue of a server that has opened its documents is sent. -/
theorem Opening.flushQueue (h : Opening w [] rest wires) : DocInv w.flushQueue := by
  unfold World.flushQueue
  refine Flushing.foldl (w := { w with queued := [] }) ⟨h.flushing.ready, h.flushing.head,
    h.flushing.attached, h.flushing.wires_good, h.flushing.synced⟩ (fun hne d hd => ?_) rfl
  exact (h.done hne d hd).resolve_right (by simp)

/-- A server that gets ready opens its documents. -/
theorem opening_setState (h : DocInv w) (hstate : w.state = .starting) (hruns : w.clientRuns)
    {syncKind : ℤ} {wantsText : Bool} :
    ∃ rest wires, Opening
      ((({ w with syncKind := syncKind, wantsDidSaveText := wantsText } : World).send
        .initialized).setState .ready) [] rest wires := by
  obtain ⟨wires, hwires⟩ : ∃ wires, w.wires = [.initializeRequest] :: wires := by
    have hhead := h.starting hstate
    cases hw : w.wires with
    | nil => simp [hw] at hhead
    | cons wire wires => exact ⟨wires, by simp_all⟩
  set v : World := { w with
    syncKind := syncKind
    wantsDidSaveText := wantsText
    wires := [.initializeRequest, .initialized] :: wires }
  have hsend : ({ w with syncKind := syncKind, wantsDidSaveText := wantsText } : World).send
      .initialized = v :=
    send_cons (w := { w with syncKind := syncKind, wantsDidSaveText := wantsText }) hruns hwires
  have hready : ({ v with state := .ready } : World).isReady := by
    have hruns' : ({ v with state := .ready } : World).clientRuns := hruns
    simp [isReady, hruns']
  rw [hsend, setState, if_neg (show v.state ≠ .ready by simp [v, hstate]), serverStateChanged,
    if_pos hready]
  have hsaid : w.said = queuedNotes w.queued := by simp [said, hstate]
  have hsynced := h.synced (.inl hstate)
  have hun := h.unannounced hstate
  rw [hsaid] at hsynced hun
  have hopening : Opening { v with state := .ready } w.ldocs [] wires := by
    refine ⟨⟨hready, rfl, h.attached, fun wire hwire => h.wires wire ?_, ?_⟩, hun, fun d hd => hd,
      h.attached.nodup_docs, fun _ d hd => .inr hd⟩
    · rw [hwires]
      exact List.mem_cons_of_mem _ hwire
    · refine hsynced.still fun d hd _ => ⟨d, hd, rfl, le_rfl, fun ht _ => ⟨ht, ?_, rfl⟩⟩
      intro hlost
      have := hlost.1
      simp [hstate] at this
  obtain ⟨rest, hrest⟩ := hopening.foldl
  exact ⟨rest, wires, hrest⟩

/-- A reply to the call of `initialize` of a process that runs. -/
theorem docInv_initializeReply (h : DocInv w) (hstate : w.state = .starting) (hruns : w.clientRuns)
    {result : Option Json} {error : Option Json.Object} :
    DocInv (w.initializeReply result error) := by
  have hcore : w.stopInitTimeout.core = w.core := core_stopInitTimeout
  have hstate' : w.stopInitTimeout.state = .starting := (congrArg Core.state hcore).trans hstate
  have hruns' : w.stopInitTimeout.clientRuns := by
    rw [clientRuns, show w.stopInitTimeout.client = w.client from congrArg Core.client hcore]
    exact hruns
  unfold initializeReply
  simp only
  split
  · obtain ⟨rest, wires, hopening⟩ := opening_setState h.stopInitTimeout hstate' hruns'
    exact hopening.flushQueue
  · exact h.stopInitTimeout.setFailed

/-! ## Events -/

theorem docInv_reply (h : DocInv w) (hsteady : Steady w.core) {id : ℤ} {result : Option Json}
    {error : Option Json.Object} : DocInv (w.reply id result error) := by
  unfold reply
  split
  · exact h
  · next client hclient =>
    split
    · exact h
    · split
      · exact h
      · next call hcall =>
        have hrem : DocInv ({ w with client := some (client.remove id) }) := by
          refine h.client fun hruns => ?_
          simpa [clientRuns, hclient, Client.isRunning, Client.remove] using hruns
        cases call with
        | initializeCall =>
          have hmem := mem_of_lookup hcall
          refine docInv_initializeReply hrem (hsteady.first client hclient id hmem).2 ?_
          by_contra hidle
          have hnil := hsteady.idle client hclient (by
            simpa [clientRuns, Client.isRunning, Client.remove] using hidle)
          rw [hnil] at hmem
          cases hmem
        | user call => exact hrem.elsewhere
        | shutdown => exact hrem

/-- A message that says nothing about documents is sent by a server that is ready. -/
theorem DocInv.send (h : DocInv w) (hready : w.isReady) (hnote : message.note = none) :
    DocInv (w.send message) := by
  obtain ⟨hstate, hruns⟩ : w.state = .ready ∧ w.clientRuns := by simpa [isReady] using hready
  obtain ⟨hqueued, rest, hhead⟩ := h.ready hstate
  obtain ⟨wires, hwires⟩ : ∃ wires, w.wires = (.initializeRequest :: .initialized :: rest) :: wires := by
    cases hw : w.wires with
    | nil => simp [hw] at hhead
    | cons wire wires => exact ⟨wires, by simp_all⟩
  have hsaid : notes (.initializeRequest :: .initialized :: rest ++ [message]) =
      notes (.initializeRequest :: .initialized :: rest) := by
    rw [notes_append]
    simp [notes, hnote]
  have hsame : said { w with wires := (.initializeRequest :: .initialized :: rest ++ [message]) :: wires }
      = w.said := by
    simp only [said, hstate, hwires, List.headD_cons, hsaid]
  rw [send_cons hruns hwires]
  refine ⟨h.attached, ?_, ?_, fun _ => ⟨hqueued, rest ++ [message], rfl⟩, fun _ => ?_, ?_, h.announced⟩
  · intro wire hwire
    rcases List.mem_cons.1 hwire with rfl | hwire
    · refine ⟨.inr ⟨rest ++ [message], rfl⟩, fun uri => ?_⟩
      rw [hsaid]
      exact (h.wires _ (hwires ▸ List.mem_cons_self)).2 uri
    · exact h.wires wire (hwires ▸ List.mem_cons_of_mem _ hwire)
  · simp [hstate]
  · rw [hsame]
    exact h.synced (.inr hready)
  · simp [hstate]

theorem docInv_lspServerCall (h : DocInv w) {call : Calls.Call} : DocInv (w.lspServerCall call) := by
  unfold lspServerCall
  split
  · exact h.elsewhere
  · next hstate =>
    have hsaid : said { w with queued := w.queued ++ [.call call] } = w.said := by
      simp [said, hstate, queuedNotes]
    refine ⟨h.attached, h.wires, h.starting, fun hready => ?_, fun hl => ?_, fun hs => ?_, h.announced⟩
    · simp [hstate] at hready
    · rw [hsaid]
      exact h.synced hl
    · rw [hsaid]
      exact h.unannounced hs
  · next hstate =>
    unfold callClient
    split
    · exact h
    · next client hclient =>
      split
      · next hrun =>
        have hrun' : (client.insert (.user call)).isRunning := hrun
        have hinsert : DocInv { w with client := some (client.insert (.user call)) } := by
          refine h.client fun _ => ?_
          simpa [clientRuns, hclient] using hrun
        refine hinsert.send ?_ rfl
        simp [isReady, hstate, clientRuns, hrun']
      · exact h.elsewhere

/-- The event is one of opening, changing, saving, renaming and closing documents, flushes, timeouts,
calls, replies and exits. It attaches no second document with the URI of another one, and sends no
change while the server starts that is dropped because the last process wanted none. -/
def Sane (w : World) : Event → Prop
  | .cancel _ | .exitTimeout | .shutdown | .release => False
  | .open_ doc uri | .rename doc uri => ∀ d ∈ w.ldocs, d.uri = uri → d.doc = doc
  | .changeTimeout doc | .flush doc | .saved doc =>
    ∀ d ∈ w.ldocs, d.doc = doc → d.changeTimeout → ¬ w.LosesChange d
  | _ => True

theorem docInv_goOn (h : DocInv w) (hsteady : Steady w.core) : DocInv w.goOn := by
  unfold goOn
  split
  · exact h
  · next todo htodo =>
    have hnone : DocInv { w with client := none } := h.client (by simp [clientRuns])
    exact hnone.elsewhere
  · next quick spawns todo htodo =>
    simp only
    split
    · refine docInv_clientExited h.elsewhere fun client hclient => hsteady.idle client hclient ?_
      have hrun := hsteady.exited client hclient ⟨.onExit quick spawns, by simp [core, htodo], rfl⟩
      simp [Client.isRunning, hrun]
    · exact h.elsewhere

theorem docInv_withDoc (h : DocInv w) {doc : ℕ} {f : World → LspDoc → World}
    (hf : ∀ d ∈ w.ldocs, d.doc = doc → DocInv (f w d)) : DocInv (w.withDoc doc f) := by
  unfold withDoc
  split
  · next d hfind => exact hf d (findDoc_some hfind).1 (findDoc_some hfind).2
  · exact h

theorem ldocs_notify : (w.notify message).ldocs = w.ldocs := by
  rw [← notify_self]
  rfl

theorem ldocs_removeDoc {doc : ℕ} : ∀ d ∈ (w.removeDoc doc).ldocs, d ∈ w.ldocs := by
  unfold removeDoc
  split
  · exact fun d hd => hd
  · split
    · unfold lspServerDidClose
      split
      · exact fun d hd => List.mem_of_mem_filter hd
      · rw [ldocs_notify]
        exact fun d hd => List.mem_of_mem_filter hd
    · exact fun d hd => List.mem_of_mem_filter hd

theorem docInv_step (h : DocInv w) (hsteady : Steady w.core) (e : Event) (hsane : w.Sane e) :
    DocInv (w.step e) := by
  unfold step
  split
  · exact h
  · cases e with
    | call hasCallback hasDestroy => exact docInv_lspServerCall h.elsewhere
    | cancel id => exact hsane.elim
    | reply id result error => exact docInv_reply h hsteady
    | exited quick spawns =>
      simp only [processExited]
      split
      · exact h
      · split
        · refine (DocInv.failPendingCalls (h.client ?_)).elsewhere
          simp [clientRuns, Client.isRunning]
        · exact h
    | initTimeout =>
      simp only [initializeTimedOut]
      split
      · exact h
      · exact (DocInv.setFailed h.elsewhere).startDrop
    | exitTimeout => exact hsane.elim
    | shutdown => exact hsane.elim
    | release => exact hsane.elim
    | goOn => exact docInv_goOn h hsteady
    | open_ doc uri => exact docInv_addDoc h hsane
    | close doc => exact docInv_removeDoc h
    | rename doc uri =>
      exact docInv_addDoc (docInv_removeDoc h) fun d hd => hsane d (ldocs_removeDoc d hd)
    | change doc text => exact docInv_bufferChanged h
    | changeTimeout doc =>
      exact docInv_withDoc h fun d hd heq => docInv_lspDocFlush h hd (hsane d hd heq)
    | flush doc => exact docInv_withDoc h fun d hd heq => docInv_lspDocFlush h hd (hsane d hd heq)
    | saved doc => exact docInv_withDoc h fun d hd heq => docInv_docSaved h hd (hsane d hd heq)

theorem docInv_new (spawns : Bool) : DocInv (new spawns) :=
  docInv_startProcess rfl rfl rfl ⟨by simp, by simp, by simp⟩ (by simp) (by simp)

/-! ## Runs -/

theorem timeout_sendDidChange :
    ∀ d ∈ (w.sendDidChange old).ldocs, d.doc = old.doc → d.changeTimeout = false := by
  unfold sendDidChange
  intro d hd heq
  split at hd
  all_goals
    rcases mem_replaceDoc hd with rfl | ⟨-, hne⟩
    · rfl
    · exact absurd heq hne

/-- No change of a document that has been flushed is waiting to be sent. -/
theorem timeout_flush {doc : ℕ} (h : Attached w.docs w.ldocs) :
    ∀ d ∈ (w.withDoc doc lspDocFlush).ldocs, d.doc = doc → d.changeTimeout = false := by
  intro d hd heq
  unfold withDoc at hd
  split at hd
  · next old hfind =>
    obtain ⟨hold, hdoc⟩ := findDoc_some hfind
    unfold lspDocFlush at hd
    split at hd
    · exact timeout_sendDidChange d hd (heq.trans hdoc.symm)
    · next ht =>
      obtain rfl := h.doc_inj hd hold (heq.trans hdoc.symm)
      simpa using ht
  · next hfind => exact absurd heq (findDoc_none hfind d hd)

theorem docInv_reachable {spawns : Bool} (h : Machine.Reachable step Sane (new spawns) w) :
    Steady w.core ∧ DocInv w :=
  h.invariant (P := fun w => Steady w.core ∧ DocInv w) ⟨steady_new spawns, docInv_new spawns⟩
    fun _ e he ⟨hsteady, h⟩ => ⟨steady_step hsteady e, docInv_step h hsteady e he⟩

/-- In every run, what is sent to every process starts with the call of `initialize`, has nothing
before `initialized`, and says nothing about a document that does not follow what was said before.
When a document has been flushed and the process wants changes, what the process has been told of it
is its text. -/
theorem docs_in_sync {spawns : Bool} (h : Machine.Reachable step Sane (new spawns) w) :
    (∀ wire ∈ w.wires, Handshake wire ∧ ∀ uri, (replay uri (notes wire)).isSome) ∧
    ∀ doc, let w' := w.withDoc doc lspDocFlush
      w'.isReady → w'.syncKind ≠ lspSyncNone → ∀ d ∈ w'.ldocs, d.doc = doc →
        ∃ wire ∈ w'.wires.head?, ∃ version,
          replay d.uri (notes wire) = some (some (version, w'.texts doc)) := by
  obtain ⟨hsteady, hinv⟩ := docInv_reachable h
  refine ⟨hinv.wires, ?_⟩
  intro doc w' hready hkind d hd heq
  have hcore : w'.core = w.core := core_withDoc fun _ => core_lspDocFlush
  have hstate : w'.state = .ready := by
    simp only [isReady, Bool.and_eq_true, beq_iff_eq] at hready
    exact hready.1
  have hflush : DocInv w' := by
    refine docInv_withDoc hinv fun old hold _ => docInv_lspDocFlush hinv hold fun _ hloses => ?_
    have hready' : w.state = .ready := (congrArg Core.state hcore).symm.trans hstate
    simp [hloses.1] at hready'
  obtain ⟨version, text, hreplay, -, htext⟩ :=
    (hflush.synced (.inr hready)).mirror d hd (hflush.announced hready hkind d hd)
  obtain ⟨-, rest, hhead⟩ := hflush.ready hstate
  refine ⟨_, hhead, version, ?_⟩
  have hsaid : w'.said = notes (.initializeRequest :: .initialized :: rest) := by
    rw [said, hstate, List.headD_eq_head?_getD, hhead]
    rfl
  rw [← hsaid, hreplay, htext (timeout_flush hinv.attached d hd heq) fun hlost => hkind hlost.2, heq]

/-- A document that is opened while the server starts, and changed when it is ready. -/
theorem docs_in_sync_opened :
    let w := [.open_ 0 ['u'], .reply 1 (some (.object [])) none, .change 0 ['a']].foldl step (new true)
    ∃ wire ∈ (w.withDoc 0 lspDocFlush).wires.head?,
      ∃ version, replay ['u'] (notes wire) = some (some (version, ['a'])) := by
  intro w
  have hopen : Machine.Reachable step Sane (new true) ((new true).step (.open_ 0 ['u'])) :=
    .step .start fun d hd => by cases hd
  have hreply := hopen.step (e := Event.reply 1 (some (.object [])) none) trivial
  have hchange : Machine.Reachable step Sane (new true) w :=
    hreply.step (e := Event.change 0 ['a']) trivial
  exact (docs_in_sync hchange).2 0 (by decide) (by decide) ⟨0, ['u'], 2, true, false⟩ (by decide) rfl

/-- A document is opened when the process that is started again has not answered yet and the last one
wanted no changes: its change is lost, though the process wants changes and it is flushed. A second
document with the URI of another one is opened and closed when the process has not answered yet: the
URI is opened twice. -/
theorem docs_out_of_sync :
    let unwanted : Json := .object [("capabilities", .object [("textDocumentSync", .int 0)])]
    let w := [.reply 1 (some unwanted) none, .exited false true, .goOn, .open_ 0 ['u'], .change 0 ['a'],
      .changeTimeout 0, .reply 1 (some (.object [])) none, .flush 0].foldl step (new true)
    let v := [.open_ 0 ['u'], .reply 1 (some (.object [])) none, .exited false true, .goOn,
      .open_ 1 ['u'], .close 1, .reply 1 (some (.object [])) none].foldl step (new true)
    (w.isReady ∧ w.syncKind = lspSyncFull ∧ w.texts 0 = ['a'] ∧
      w.wires.head? = some [.initializeRequest, .initialized, .didOpen ['u'] 1 []]) ∧
    v.wires.head? = some [.initializeRequest, .initialized, .didOpen ['u'] 1 [],
      .didOpen ['u'] 1 [], .didClose ['u']] :=
  ⟨⟨rfl, rfl, rfl, rfl⟩, rfl⟩

end World

end Medit
