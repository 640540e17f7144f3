import Mathlib.Data.List.Nodup
import Medit.FileWatch.Model

/-!
# The monitors of a watch

The list and the table have the same monitors, each of them is in memory, and the `notify` of a
monitor runs when it is freed. After the watch has been closed the table still has the monitors
that were freed with it.

## Main definitions

* `Watch.Good` — what the calls keep.
* `Watch.Known` — an id can be looked up: the watch is open, or the table does not have the id.

## Main results

* `Good.createMonitor`, `Good.cancelMonitor`, `Good.close` — the calls reach no memory that is
  freed, as long as the ids can be looked up.
-/

namespace Medit.FileWatch

open Function

namespace Watch

variable {w w' : Watch} {p : Ptr} {id : ℕ} {m : Monitor}

/-- The `notify` of each monitor that has been freed has run once. -/
structure Accounted (w : Watch) : Prop where
  below : ∀ p m, w.heap p = some m → p < w.nextPtr
  unnotified : ∀ p m, w.heap p = some m → w.notified p = 0
  notified : ∀ p, p < w.nextPtr → w.heap p = none → w.notified p = 1
  beyond : ∀ p, w.nextPtr ≤ p → w.notified p = 0

/-- The state of a watch between two accesses. -/
structure Good (w : Watch) : Prop extends w.Accounted where
  nodup : w.monitors.Nodup
  listed : ∀ p, p ∈ w.monitors ↔ ∃ m, w.heap p = some m
  tabled : w.alive → ∀ id p, w.requests id = some p ↔ ∃ m, w.heap p = some m ∧ m.id = id
  closed : w.alive = false → w.monitors = []

/-- An id that can be looked up. -/
def Known (w : Watch) (id : ℕ) : Prop := w.alive ∨ w.requests id = none

instance : Decidable (w.Known id) := inferInstanceAs (Decidable (_ ∨ _))

/-- Monitors have been freed, and nothing else has happened to the memory. -/
structure Freed (w w' : Watch) : Prop where
  heap : ∀ p, w'.heap p = w.heap p ∨ w'.heap p = none
  nextPtr : w'.nextPtr = w.nextPtr
  lastId : w'.lastId = w.lastId
  alive : w'.alive → w.alive

theorem Freed.refl (w : Watch) : w.Freed w := ⟨fun _ => .inl rfl, rfl, rfl, id⟩

theorem Freed.trans {w'' : Watch} (h : w.Freed w') (h' : w'.Freed w'') : w.Freed w'' where
  heap p := by
    rcases h'.heap p with heq | hnone
    · exact (h.heap p).imp heq.trans heq.trans
    · exact .inr hnone
  nextPtr := h'.nextPtr.trans h.nextPtr
  lastId := h'.lastId.trans h.lastId
  alive := h.alive ∘ h'.alive

theorem Freed.of_some (h : w.Freed w') (hp : w'.heap p = some m) : w.heap p = some m := by
  rcases h.heap p with heq | hnone
  · rw [← heq, hp]
  · rw [hnone] at hp
    simp at hp

theorem heap_free (w : Watch) (p q : Ptr) (m : Monitor) :
    (w.free p).heap q = some m ↔ q ≠ p ∧ w.heap q = some m := by
  rcases eq_or_ne q p with rfl | hne
  · simp [free]
  · simp [free, hne]

theorem Accounted.free (h : w.Accounted) (hp : w.heap p = some m) : (w.free p).Accounted := by
  have hlt := h.below p m hp
  refine ⟨fun q m' hq => ?_, fun q m' hq => ?_, fun q hq hnone => ?_, fun q hq => ?_⟩
  · exact h.below q m' ((heap_free w p q m').1 hq).2
  · obtain ⟨hne, hq⟩ := (heap_free w p q m').1 hq
    exact (update_of_ne hne ..).trans (h.unnotified q m' hq)
  · rcases eq_or_ne q p with rfl | hne
    · exact (update_self ..).trans (by rw [h.unnotified q m hp])
    · have hnone : w.heap q = none := (update_of_ne hne ..).symm.trans hnone
      exact (update_of_ne hne ..).trans (h.notified q hq hnone)
  · have hne : q ≠ p := Nat.ne_of_gt (Nat.lt_of_lt_of_le hlt hq)
    exact (update_of_ne hne ..).trans (h.beyond q hq)

theorem Freed.free (w : Watch) (p : Ptr) : w.Freed (w.free p) := by
  refine ⟨fun q => ?_, rfl, rfl, id⟩
  rcases eq_or_ne q p with rfl | hne
  · exact .inr (update_self ..)
  · exact .inl (update_of_ne hne ..)

/-- While a watch is being closed the memory has the monitors that are still to come. -/
theorem Accounted.freeAll {ps : List Ptr} (h : w.Accounted) (hnodup : ps.Nodup)
    (hps : ∀ p, p ∈ ps ↔ ∃ m, w.heap p = some m) :
    ∃ w', w.freeAll ps = some w' ∧ w'.Accounted ∧ w.Freed w' ∧ (∀ p, w'.heap p = none) ∧
      w'.alive = w.alive ∧ w'.monitors = w.monitors := by
  induction ps generalizing w with
  | nil =>
    refine ⟨w, rfl, h, .refl w, fun p => ?_, rfl, rfl⟩
    exact Option.eq_none_iff_forall_ne_some.2 fun m hm => List.not_mem_nil ((hps p).2 ⟨m, hm⟩)
  | cons p ps ih =>
    obtain ⟨hp, hnodup⟩ := List.nodup_cons.1 hnodup
    obtain ⟨m, hm⟩ := (hps p).1 (List.mem_cons_self ..)
    obtain ⟨w', hw', hacc, hfreed, hnone, halive, hmonitors⟩ := ih (h.free hm) hnodup fun q => by
      simp only [heap_free]
      constructor
      · intro hq
        obtain ⟨m', hm'⟩ := (hps q).1 (List.mem_cons_of_mem _ hq)
        exact ⟨m', by rintro rfl; exact hp hq, hm'⟩
      · rintro ⟨m', hne, hm'⟩
        exact (List.mem_cons.1 ((hps q).2 ⟨m', hm'⟩)).resolve_left hne
    refine ⟨w', ?_, hacc, (Freed.free w p).trans hfreed, hnone, halive, hmonitors⟩
    rw [Watch.freeAll, hm]
    exact hw'

namespace Good

theorem new (lastId : ℕ) : (new lastId).Good where
  below _ _ h := by simp [Watch.new] at h
  unnotified _ _ h := by simp [Watch.new] at h
  notified _ h := absurd h (Nat.not_lt_zero _)
  beyond _ _ := rfl
  nodup := List.nodup_nil
  listed _ := by simp [Watch.new]
  tabled _ _ _ := by simp [Watch.new]
  closed h := by simp [Watch.new] at h

/-- A monitor of an open watch is taken out of the list, the table and the memory. -/
theorem cancel (h : w.Good) (hopen : w.alive) (hp : w.heap p = some m) :
    ({ w with monitors := w.monitors.erase p, requests := update w.requests m.id none }.free
      p).Good := by
  obtain ⟨hbelow, hunnotified, hnotified, hbeyond⟩ := h.toAccounted.free hp
  have htable := h.tabled hopen
  refine ⟨⟨hbelow, hunnotified, hnotified, hbeyond⟩, h.nodup.erase p, fun q => ?_, fun _ id q => ?_,
    fun hclosed => ?_⟩
  · change q ∈ w.monitors.erase p ↔ ∃ m', (w.free p).heap q = some m'
    simp only [heap_free]
    rw [h.nodup.mem_erase_iff, h.listed]
    exact ⟨fun ⟨hne, m', hm'⟩ => ⟨m', hne, hm'⟩, fun ⟨m', hne, hm'⟩ => ⟨hne, m', hm'⟩⟩
  · change update w.requests m.id none id = some q ↔ ∃ m', (w.free p).heap q = some m' ∧ m'.id = id
    simp only [heap_free]
    rcases eq_or_ne id m.id with rfl | hid
    · rw [update_self]
      refine iff_of_false (by simp) ?_
      rintro ⟨m', ⟨hne, hm'⟩, hid⟩
      have hq := (htable m.id q).2 ⟨m', hm', hid⟩
      rw [(htable m.id p).2 ⟨m, hp, rfl⟩] at hq
      exact hne (Option.some.inj hq).symm
    · rw [update_of_ne hid, htable]
      constructor
      · rintro ⟨m', hm', hid'⟩
        refine ⟨m', ⟨?_, hm'⟩, hid'⟩
        rintro rfl
        rw [hp] at hm'
        exact hid (Option.some.inj hm' ▸ hid'.symm)
      · rintro ⟨m', ⟨-, hm'⟩, hid'⟩
        exact ⟨m', hm', hid'⟩
  · have hclosed : w.alive = false := hclosed
    rw [hopen] at hclosed
    exact absurd hclosed (by decide)

theorem cancelMonitor (h : w.Good) (hid : w.Known id) :
    ∃ w', w.cancelMonitor id = some w' ∧ w'.Good ∧ w.Freed w' ∧ w'.alive = w.alive ∧
      w'.requests id = none ∧ ∀ id' ≠ id, w'.requests id' = w.requests id' := by
  rw [Watch.cancelMonitor]
  cases hreq : w.requests id with
  | none => exact ⟨w, rfl, h, .refl w, rfl, hreq, fun _ _ => rfl⟩
  | some p =>
    have hopen : w.alive := hid.resolve_right (by simp [hreq])
    obtain ⟨m, hp, rfl⟩ := (h.tabled hopen id p).1 hreq
    simp only [hp]
    have hfreed := Freed.free w p
    exact ⟨_, rfl, h.cancel hopen hp, ⟨hfreed.heap, rfl, rfl, fun h => h⟩, rfl, update_self ..,
      fun id' hid' => update_of_ne hid' ..⟩

/-- What is found for a monitor is written to it. -/
theorem setMonitor (h : w.Good) (hp : w.heap p = some m) {m' : Monitor} (hid : m'.id = m.id) :
    { w with heap := update w.heap p (some m') }.Good := by
  have hheap : ∀ q m₁, update w.heap p (some m') q = some m₁ ↔
      q = p ∧ m₁ = m' ∨ q ≠ p ∧ w.heap q = some m₁ := by
    intro q m₁
    rcases eq_or_ne q p with rfl | hne
    · simp [eq_comm]
    · simp [hne]
  have hnone : ∀ q, update w.heap p (some m') q = none → w.heap q = none := by
    intro q hq
    rcases eq_or_ne q p with rfl | hne
    · simp at hq
    · rwa [update_of_ne hne] at hq
  refine ⟨⟨fun q m₁ hq => ?_, fun q m₁ hq => ?_, fun q hq hq' => h.notified q hq (hnone q hq'),
    h.beyond⟩, h.nodup, fun q => ?_, fun hopen id q => ?_, h.closed⟩
  · rcases (hheap q m₁).1 hq with ⟨rfl, -⟩ | ⟨-, hq⟩
    · exact h.below q m hp
    · exact h.below q m₁ hq
  · rcases (hheap q m₁).1 hq with ⟨rfl, -⟩ | ⟨-, hq⟩
    · exact h.unnotified q m hp
    · exact h.unnotified q m₁ hq
  · rw [h.listed]
    simp only [hheap]
    constructor
    · rintro ⟨m₁, hm₁⟩
      rcases eq_or_ne q p with rfl | hne
      · exact ⟨m', .inl ⟨rfl, rfl⟩⟩
      · exact ⟨m₁, .inr ⟨hne, hm₁⟩⟩
    · rintro ⟨m₁, ⟨rfl, -⟩ | ⟨-, hm₁⟩⟩
      · exact ⟨m, hp⟩
      · exact ⟨m₁, hm₁⟩
  · rw [h.tabled hopen]
    simp only [hheap]
    constructor
    · rintro ⟨m₁, hm₁, hid₁⟩
      rcases eq_or_ne q p with rfl | hne
      · rw [hp] at hm₁
        exact ⟨m', .inl ⟨rfl, rfl⟩, by rw [hid, ← hid₁, Option.some.inj hm₁]⟩
      · exact ⟨m₁, .inr ⟨hne, hm₁⟩, hid₁⟩
    · rintro ⟨m₁, ⟨rfl, rfl⟩ | ⟨-, hm₁⟩, hid₁⟩
      · exact ⟨m, hp, hid ▸ hid₁⟩
      · exact ⟨m₁, hm₁, hid₁⟩

/-- The ids of the list are those of the table. -/
theorem ids (h : w.Good) (hopen : w.alive) :
    ∃ list, World.ids w w.monitors = some list ∧ list.Nodup ∧
      ∀ id, id ∈ list ↔ ∃ p m, w.heap p = some m ∧ m.id = id := by
  have hids : ∀ ps : List Ptr, ps.Nodup → (∀ p ∈ ps, p ∈ w.monitors) →
      ∃ list, World.ids w ps = some list ∧ list.Nodup ∧
        ∀ id, id ∈ list ↔ ∃ p ∈ ps, ∃ m, w.heap p = some m ∧ m.id = id := by
    intro ps hnodup hps
    induction ps with
    | nil => exact ⟨[], rfl, List.nodup_nil, by simp⟩
    | cons p ps ih =>
      obtain ⟨hp, hnodup⟩ := List.nodup_cons.1 hnodup
      obtain ⟨hmem, hps⟩ := List.forall_mem_cons.1 hps
      obtain ⟨list, hlist, hlnodup, hids⟩ := ih hnodup hps
      obtain ⟨m, hm⟩ := (h.listed p).1 hmem
      refine ⟨list ++ [m.id], by simp [World.ids, hm, hlist], ?_, fun id => ?_⟩
      · rw [List.nodup_append]
        refine ⟨hlnodup, List.nodup_singleton _, ?_⟩
        rintro id hid id' hid' rfl
        obtain ⟨q, hq, m', hm', hmid⟩ := (hids id).1 hid
        have hqp : w.requests id = some q := (h.tabled hopen id q).2 ⟨m', hm', hmid⟩
        have hpp : w.requests id = some p :=
          (h.tabled hopen id p).2 ⟨m, hm, (List.mem_singleton.1 hid').symm⟩
        rw [hqp] at hpp
        exact hp (Option.some.inj hpp ▸ hq)
      · rw [List.mem_append, hids, List.mem_singleton]
        constructor
        · rintro (⟨q, hq, m', hm', hmid⟩ | rfl)
          · exact ⟨q, List.mem_cons_of_mem _ hq, m', hm', hmid⟩
          · exact ⟨p, List.mem_cons_self .., m, hm, rfl⟩
        · rintro ⟨q, hq, m', hm', hmid⟩
          rcases List.mem_cons.1 hq with rfl | hq
          · rw [hm] at hm'
            exact .inr (Option.some.inj hm' ▸ hmid.symm)
          · exact .inl ⟨q, hq, m', hm', hmid⟩
  obtain ⟨list, hlist, hnodup, hmem⟩ := hids _ h.nodup fun _ => id
  refine ⟨list, hlist, hnodup, fun id => (hmem id).trans ?_⟩
  exact ⟨fun ⟨p, _, m, hm⟩ => ⟨p, m, hm⟩, fun ⟨p, m, hm⟩ => ⟨p, (h.listed p).2 ⟨m, hm.1⟩, m, hm⟩⟩

theorem createMonitor (h : w.Good) (filename : String) (stat : Stat)
    (hid : w.alive → ∀ mtime, stat = .ok mtime → w.requests (getNewMonitorId w.lastId) = none) :
    (w.createMonitor filename stat).1.Good ∧
      (w.createMonitor filename stat).1.alive = w.alive ∧
      w.nextPtr ≤ (w.createMonitor filename stat).1.nextPtr ∧
      (∀ p, p ≠ w.nextPtr → (w.createMonitor filename stat).1.heap p = w.heap p) ∧
      ((w.alive = false ∨ ∃ err, stat = .error err) ∧
          (w.createMonitor filename stat).1.heap w.nextPtr = none ∨
        w.alive ∧ ∃ mtime, stat = .ok mtime ∧ (w.createMonitor filename stat).1.heap w.nextPtr =
          some ⟨getNewMonitorId w.lastId, filename, mtime, true⟩) := by
  have hnew : ∀ m, w.heap w.nextPtr ≠ some m := fun m hm => Nat.lt_irrefl _ (h.below _ m hm)
  have hnone : w.heap w.nextPtr = none := Option.eq_none_iff_forall_ne_some.2 hnew
  cases hopen : w.alive with
  | false =>
    rw [Watch.createMonitor, hopen]
    refine ⟨h, hopen, Nat.le_refl _, fun _ _ => rfl, .inl ⟨.inl rfl, hnone⟩⟩
  | true =>
    cases stat with
    | error err =>
      -- the monitor is freed as soon as `stat` has failed
      have hheap : update (update w.heap w.nextPtr (some ⟨0, filename, 0, false⟩)) w.nextPtr none =
          w.heap := by rw [update_idem, ← hnone, update_eq_self]
      have hw' : (w.createMonitor filename (.error err)).1 = { w with
          nextPtr := w.nextPtr + 1
          notified := update w.notified w.nextPtr (w.notified w.nextPtr + 1) } := by
        rw [Watch.createMonitor, hopen]
        simp only [free, hheap]
        rfl
      rw [hw']
      refine ⟨⟨⟨fun p m hp => Nat.lt_succ_of_lt (h.below p m hp), fun p m hp => ?_,
        fun p hp hnone => ?_, fun p hp => ?_⟩, h.nodup, h.listed, h.tabled, h.closed⟩, hopen,
        Nat.le_succ _, fun _ _ => rfl, .inl ⟨.inr ⟨err, rfl⟩, hnone⟩⟩
      · have hne : p ≠ w.nextPtr := Nat.ne_of_lt (h.below p m hp)
        exact (update_of_ne hne ..).trans (h.unnotified p m hp)
      · rcases Nat.lt_succ_iff_lt_or_eq.1 hp with hlt | rfl
        · exact (update_of_ne (Nat.ne_of_lt hlt) ..).trans (h.notified p hlt hnone)
        · exact (update_self ..).trans (by rw [h.beyond _ (Nat.le_refl _)])
      · have hne : p ≠ w.nextPtr := Nat.ne_of_gt hp
        exact (update_of_ne hne ..).trans (h.beyond p (Nat.le_of_succ_le hp))
    | ok mtime =>
      have hid := hid hopen mtime rfl
      have hw' : (w.createMonitor filename (.ok mtime)).1 = { w with
          lastId := getNewMonitorId w.lastId
          nextPtr := w.nextPtr + 1
          heap := update w.heap w.nextPtr (some ⟨getNewMonitorId w.lastId, filename, mtime, true⟩)
          monitors := w.nextPtr :: w.monitors
          requests := update w.requests (getNewMonitorId w.lastId) (some w.nextPtr) } := by
        rw [Watch.createMonitor, hopen]
        simp only [update_idem]
        rfl
      rw [hw']
      generalize hm₀ : (⟨getNewMonitorId w.lastId, filename, mtime, true⟩ : Monitor) = m₀
      have hid₀ : m₀.id = getNewMonitorId w.lastId := hm₀ ▸ rfl
      have hheap : ∀ p m, update w.heap w.nextPtr (some m₀) p = some m ↔
          p = w.nextPtr ∧ m = m₀ ∨ p ≠ w.nextPtr ∧ w.heap p = some m := by
        intro p m
        rcases eq_or_ne p w.nextPtr with rfl | hne
        · simp [eq_comm]
        · simp [hne]
      refine ⟨⟨⟨fun p m hp => ?_, fun p m hp => ?_, fun p hp hnone' => ?_, fun p hp => ?_⟩, ?_,
        fun p => ?_, fun _ id p => ?_, ?_⟩, hopen, Nat.le_succ _, fun p hp => update_of_ne hp ..,
        .inr ⟨rfl, mtime, rfl, (update_self ..).trans (by rw [hm₀])⟩⟩
      · rcases (hheap p m).1 hp with ⟨rfl, -⟩ | ⟨-, hp⟩
        · exact Nat.lt_succ_self _
        · exact Nat.lt_succ_of_lt (h.below p m hp)
      · rcases (hheap p m).1 hp with ⟨rfl, -⟩ | ⟨-, hp⟩
        · exact h.beyond _ (Nat.le_refl _)
        · exact h.unnotified p m hp
      · replace hnone' : update w.heap w.nextPtr (some m₀) p = none := hnone'
        have hne : p ≠ w.nextPtr := by
          rintro rfl
          rw [update_self] at hnone'
          simp at hnone'
        rw [update_of_ne hne] at hnone'
        exact h.notified p (Nat.lt_of_le_of_ne (Nat.lt_succ_iff.1 hp) hne) hnone'
      · exact h.beyond p (Nat.le_of_succ_le hp)
      · refine List.nodup_cons.2 ⟨fun hmem => ?_, h.nodup⟩
        obtain ⟨m, hm⟩ := (h.listed _).1 hmem
        exact hnew m hm
      · rw [List.mem_cons, h.listed]
        simp only [hheap]
        constructor
        · rintro (rfl | ⟨m, hm⟩)
          · exact ⟨m₀, .inl ⟨rfl, rfl⟩⟩
          · exact ⟨m, .inr ⟨by rintro rfl; exact hnew m hm, hm⟩⟩
        · rintro ⟨m, ⟨rfl, -⟩ | ⟨-, hm⟩⟩
          · exact .inl rfl
          · exact .inr ⟨m, hm⟩
      · simp only [hheap]
        have htable := h.tabled hopen id
        rcases eq_or_ne id (getNewMonitorId w.lastId) with rfl | hne
        · rw [update_self]
          constructor
          · intro hp
            exact ⟨m₀, .inl ⟨(Option.some.inj hp).symm, rfl⟩, hid₀⟩
          · rintro ⟨m, ⟨rfl, -⟩ | ⟨-, hm⟩, hmid⟩
            · rfl
            · rw [(htable p).2 ⟨m, hm, hmid⟩] at hid
              simp at hid
        · rw [update_of_ne hne, htable]
          constructor
          · rintro ⟨m, hm, hmid⟩
            exact ⟨m, .inr ⟨by rintro rfl; exact hnew m hm, hm⟩, hmid⟩
          · rintro ⟨m, ⟨-, rfl⟩ | ⟨-, hm⟩, hmid⟩
            · exact absurd (hmid.symm.trans hid₀) hne
            · exact ⟨m, hm, hmid⟩
      · intro hclosed
        have hclosed : w.alive = false := hclosed
        rw [hopen] at hclosed
        exact absurd hclosed (by decide)

/-- Closing a watch frees each of its monitors. -/
theorem close (h : w.Good) :
    ∃ w', w.close = some w' ∧ w'.Good ∧ w.Freed w' ∧ w'.alive = false := by
  rw [Watch.close]
  cases hopen : w.alive with
  | false => exact ⟨w, rfl, h, .refl w, hopen⟩
  | true =>
    have hacc : { w with alive := false, monitors := [] }.Accounted :=
      ⟨h.below, h.unnotified, h.notified, h.beyond⟩
    obtain ⟨w', hw', hacc', hfreed, hnone, halive, hmonitors⟩ :=
      hacc.freeAll h.nodup h.listed
    refine ⟨w', hw', ⟨hacc', ?_, fun p => ?_, fun hopen' => ?_, fun _ => hmonitors⟩,
      ⟨hfreed.heap, hfreed.nextPtr, hfreed.lastId, fun hopen' => ?_⟩, halive⟩
    · rw [hmonitors]
      exact List.nodup_nil
    · simp [hmonitors, hnone]
    · rw [halive] at hopen'
      exact absurd hopen' Bool.false_ne_true
    · rw [halive] at hopen'
      exact absurd hopen' Bool.false_ne_true

end Good

end Watch

end Medit.FileWatch
