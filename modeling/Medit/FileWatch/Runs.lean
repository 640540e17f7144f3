import Medit.FileWatch.Monitors

/-!
# Runs of a file watch

Calls and checks in any order, with calls from the callbacks of a check.

## Main definitions

* `Told` — every monitor that had its turn got the event that is due to it, at most once in a
  check, and none after its file was missing or `stat` failed.
* `World.Meets` — no file gets older, and no monitor is looked up that a close has freed.

## Main results

* `run_tells` — runs of such steps tell every change and reach no memory that is freed.
-/

namespace Medit.FileWatch

open Function

/-! ## Events that are due -/

/-- The event for a file that was last seen with a modification time. -/
def due (id : ℕ) (filename : String) (seen : ℤ) : Stat → Option FileEvent
  | .ok mtime => if mtime ≠ seen then some ⟨.changed, id, filename, none⟩ else none
  | .error .noent => some ⟨.deleted, id, filename, none⟩
  | .error err => some ⟨.error, id, filename, some (errnoToFileError err)⟩

/-- The file is not older than it was. -/
def Stat.NotOlder (seen : ℤ) : Stat → Prop
  | .ok mtime => seen ≤ mtime
  | .error _ => True

instance (seen : ℤ) : DecidablePred (Stat.NotOlder seen)
  | .ok mtime => inferInstanceAs (Decidable (seen ≤ mtime))
  | .error _ => inferInstanceAs (Decidable True)

namespace Entry

def monitor : Entry → Ptr
  | created p .. => p
  | turn _ p .. => p

/-- The monitor had its turn in a check. -/
def InTick (n : ℕ) (p : Ptr) : Entry → Prop
  | created .. => False
  | turn n' p' .. => n' = n ∧ p' = p

/-- The file of the monitor was missing. -/
def Missing (p : Ptr) : Entry → Prop
  | turn _ p' (.error .noent) _ => p' = p
  | _ => False

/-- `stat` failed for the monitor, with the file not missing. -/
def Broken (p : Ptr) : Entry → Prop
  | turn _ _ (.error .noent) _ => False
  | turn _ p' (.error _) _ => p' = p
  | _ => False

theorem InTick.monitor_eq {n : ℕ} {p : Ptr} {e : Entry} (h : e.InTick n p) : e.monitor = p := by
  cases e with
  | created => exact h.elim
  | turn => exact h.2

theorem Missing.monitor_eq {p : Ptr} {e : Entry} (h : e.Missing p) : e.monitor = p := by
  unfold Missing at h
  split at h
  · exact h
  · exact h.elim

theorem Broken.monitor_eq {p : Ptr} {e : Entry} (h : e.Broken p) : e.monitor = p := by
  unfold Broken at h
  split at h
  · exact h.elim
  · exact h
  · exact h.elim

end Entry

/-- What is known of a monitor: its id, its file and when that was modified. -/
def known (p : Ptr) : List Entry → Option (ℕ × String × ℤ)
  | [] => none
  | .created q id filename mtime :: l =>
    if q = p then some (id, filename, mtime) else known p l
  | .turn _ q (.ok mtime) _ :: l =>
    if q = p then (known p l).map fun (id, filename, _) => (id, filename, mtime) else known p l
  | .turn _ _ (.error _) _ :: l => known p l

/-- Every turn of a monitor gave it the event that was due, once in a check and never after its
file was missing or `stat` failed. -/
def Told : List Entry → Prop
  | [] => True
  | .created p _ _ _ :: l => (∀ e ∈ l, e.monitor ≠ p) ∧ Told l
  | .turn n p stat event :: l =>
    (∃ id filename seen, known p l = some (id, filename, seen) ∧
      event = due id filename seen stat) ∧
    (∀ e ∈ l, ¬ e.InTick n p ∧ ¬ e.Missing p ∧ ¬ e.Broken p) ∧ Told l

namespace World

variable {w w' : World} {t : Tick} {p : Ptr} {id : ℕ} {m : Monitor}

/-! ## The invariant -/

/-- A check that is going on. -/
structure TickGood (w : World) (t : Tick) : Prop where
  nodup : t.list.Nodup
  removed : ∀ id ∈ t.toRemove, id ∉ t.list
  started : ∀ p ∈ t.started, p < w.watch.nextPtr
  /-- A monitor that had its turn is not to have another one. -/
  done : ∀ e ∈ w.log, ∀ p, e.InTick w.ticks p → ∀ m, w.watch.heap p = some m → m.id ∉ t.list
  /-- A monitor that was there is to have its turn or had it. -/
  due : ∀ p ∈ t.started, ∀ m, w.watch.heap p = some m → m.alive →
    m.id ∈ t.list ∨ ∃ e ∈ w.log, e.InTick w.ticks p

/-- What holds between two steps. -/
structure Good (w : World) : Prop where
  watch : w.watch.Good
  told : Told w.log
  logged : ∀ e ∈ w.log, e.monitor < w.watch.nextPtr
  known : ∀ p m, w.watch.heap p = some m → (∃ e ∈ w.log, e.Missing p ∨ e.Broken p) ∨
    known p w.log = some (m.id, m.filename, m.mtime)
  missing : ∀ e ∈ w.log, ∀ p, e.Missing p → ∀ m, w.watch.heap p = some m →
    ∃ t, w.tick = some t ∧ m.id ∈ t.toRemove
  broken : ∀ e ∈ w.log, ∀ p, e.Broken p → ∀ m, w.watch.heap p = some m → m.alive = false
  ticks : ∀ e ∈ w.log, ∀ n p, e.InTick n p → n ≤ w.ticks
  tick : ∀ t, w.tick = some t → w.TickGood t

theorem Good.new (lastId : ℕ) : (new lastId).Good where
  watch := .new lastId
  told := trivial
  logged _ h := absurd h List.not_mem_nil
  known _ _ h := by simp [World.new, Watch.new] at h
  missing _ h := absurd h List.not_mem_nil
  broken _ h := absurd h List.not_mem_nil
  ticks _ h := absurd h List.not_mem_nil
  tick _ h := by simp [World.new] at h

/-- Monitors that are freed are not missed. -/
theorem Good.freed (h : w.Good) {watch : Watch} (hgood : watch.Good)
    (hfreed : w.watch.Freed watch) :
    { w with watch := watch }.Good where
  watch := hgood
  told := h.told
  logged e he := by
    rw [hfreed.nextPtr]
    exact h.logged e he
  known p m hp := h.known p m (hfreed.of_some hp)
  missing e he p hmissing m hp := h.missing e he p hmissing m (hfreed.of_some hp)
  broken e he p hbroken m hp := h.broken e he p hbroken m (hfreed.of_some hp)
  ticks := h.ticks
  tick t ht := by
    have htick := h.tick t ht
    refine ⟨htick.nodup, htick.removed, ?_, ?_, ?_⟩
    · rw [hfreed.nextPtr]
      exact htick.started
    · exact fun e he p hin m hp => htick.done e he p hin m (hfreed.of_some hp)
    · exact fun p hp m hm => htick.due p hp m (hfreed.of_some hm)

/-- A monitor that has been created. -/
theorem Good.created (h : w.Good) (filename : String) (stat : Stat)
    (hid : w.watch.alive → ∀ mtime, stat = .ok mtime →
      w.watch.requests (getNewMonitorId w.watch.lastId) = none) :
    { w with
      watch := (w.watch.createMonitor filename stat).1
      log := w.logCreated filename stat }.Good := by
  obtain ⟨hgood, -, hnext, hheap, hnew⟩ := h.watch.createMonitor filename stat hid
  have hlog : (w.logCreated filename stat = w.log ∧
        (w.watch.createMonitor filename stat).1.heap w.watch.nextPtr = none) ∨
      ∃ mtime, w.logCreated filename stat = .created w.watch.nextPtr
          (getNewMonitorId w.watch.lastId) filename mtime :: w.log ∧
        (w.watch.createMonitor filename stat).1.heap w.watch.nextPtr =
          some ⟨getNewMonitorId w.watch.lastId, filename, mtime, true⟩ := by
    rcases hnew with ⟨hclosed | ⟨err, rfl⟩, hnone⟩ | ⟨hopen, mtime, rfl, hsome⟩
    · exact .inl ⟨by simp [logCreated, hclosed], hnone⟩
    · exact .inl ⟨by simp [logCreated], hnone⟩
    · exact .inr ⟨mtime, by simp [logCreated, hopen], hsome⟩
  generalize (w.watch.createMonitor filename stat).1 = watch at hgood hnext hheap hlog
  -- the monitors that have been there are as they were
  have hold : ∀ p m, p < w.watch.nextPtr → watch.heap p = some m → w.watch.heap p = some m :=
    fun p m hp hm => (hheap p (Nat.ne_of_lt hp)).symm.trans hm
  have hne : ∀ e ∈ w.log, e.monitor ≠ w.watch.nextPtr := fun e he => Nat.ne_of_lt (h.logged e he)
  rcases hlog with ⟨hlog, hnone⟩ | ⟨mtime, hlog, hsome⟩
  · have hheap' : ∀ p m, watch.heap p = some m → w.watch.heap p = some m := by
      intro p m hm
      rcases eq_or_ne p w.watch.nextPtr with rfl | hp
      · rw [hnone] at hm
        simp at hm
      · rw [← hheap p hp, hm]
    rw [hlog]
    refine ⟨hgood, h.told, fun e he => Nat.lt_of_lt_of_le (h.logged e he) hnext,
      fun p m hp => h.known p m (hheap' p m hp),
      fun e he p hmissing m hp => h.missing e he p hmissing m (hheap' p m hp),
      fun e he p hbroken m hp => h.broken e he p hbroken m (hheap' p m hp), h.ticks, fun t ht => ?_⟩
    have htick := h.tick t ht
    exact ⟨htick.nodup, htick.removed, fun p hp => Nat.lt_of_lt_of_le (htick.started p hp) hnext,
      fun e he p hin m hp => htick.done e he p hin m (hheap' p m hp),
      fun p hp m hm => htick.due p hp m (hheap' p m hm)⟩
  · have hlt : w.watch.nextPtr < watch.nextPtr := hgood.below _ _ hsome
    rw [hlog]
    refine ⟨hgood, ⟨hne, h.told⟩, ?_, fun p m hp => ?_, ?_, ?_, ?_, fun t ht => ?_⟩
    · exact List.forall_mem_cons.2
        ⟨hlt, fun e he => Nat.lt_of_lt_of_le (h.logged e he) hnext⟩
    · rcases eq_or_ne p w.watch.nextPtr with rfl | hpne
      · rw [hsome] at hp
        rw [← Option.some.inj hp]
        exact .inr (if_pos rfl)
      · rw [hheap p hpne] at hp
        rcases h.known p m hp with ⟨e, he, hfail⟩ | hknown
        · exact .inl ⟨e, List.mem_cons_of_mem _ he, hfail⟩
        · exact .inr ((if_neg (Ne.symm hpne)).trans hknown)
    · refine List.forall_mem_cons.2
        ⟨fun _ hmissing => hmissing.elim, fun e he p hmissing m hp => ?_⟩
      exact h.missing e he p hmissing m
        (hold p m (hmissing.monitor_eq ▸ h.logged e he) hp)
    · refine List.forall_mem_cons.2 ⟨fun _ hbroken => hbroken.elim, fun e he p hbroken m hp => ?_⟩
      exact h.broken e he p hbroken m (hold p m (hbroken.monitor_eq ▸ h.logged e he) hp)
    · exact List.forall_mem_cons.2 ⟨fun _ _ hin => hin.elim, h.ticks⟩
    · have htick := h.tick t ht
      refine ⟨htick.nodup, htick.removed,
        fun p hp => Nat.lt_of_lt_of_le (htick.started p hp) hnext, ?_, fun p hp m hm hmalive => ?_⟩
      · refine List.forall_mem_cons.2 ⟨fun _ hin => hin.elim, fun e he p hin m hp => ?_⟩
        exact htick.done e he p hin m (hold p m (hin.monitor_eq ▸ h.logged e he) hp)
      · rcases htick.due p hp m (hold p m (htick.started p hp) hm) hmalive with hlist | ⟨e, he, hin⟩
        · exact .inl hlist
        · exact .inr ⟨e, List.mem_cons_of_mem _ he, hin⟩

theorem Good.beginTick (h : w.Good) (hopen : w.watch.alive) (htick : w.tick = none) :
    ∃ w', w.beginTick = some w' ∧ w'.Good := by
  obtain ⟨list, hlist, hnodup, hids⟩ := h.watch.ids hopen
  refine ⟨{ w with tick := some ⟨list, [], false, w.watch.monitors⟩, ticks := w.ticks + 1 },
    by rw [World.beginTick, hlist]; rfl, h.watch, h.told, h.logged, h.known, ?_, h.broken,
    fun e he n p hin => Nat.le_succ_of_le (h.ticks e he n p hin), fun t ht => ?_⟩
  · intro e he p hmissing m hp
    obtain ⟨t, ht, -⟩ := h.missing e he p hmissing m hp
    rw [htick] at ht
    simp at ht
  · obtain rfl := Option.some.inj ht
    refine ⟨hnodup, fun id hid => absurd hid List.not_mem_nil, fun p hp => ?_, ?_, ?_⟩
    · obtain ⟨m, hm⟩ := (h.watch.listed p).1 hp
      exact h.watch.below p m hm
    · intro e he p hin
      exact absurd (h.ticks e he _ p hin) (Nat.not_succ_le_self _)
    · exact fun p hp m hm _ => .inl ((hids _).2 ⟨p, m, hm, rfl⟩)

/-- A monitor that is passed over. -/
theorem Good.passed (h : w.Good) {list : List ℕ} {inCallback : Bool} (ht : w.tick = some t)
    (hlist : t.list = id :: list)
    (hpass : ∀ p m, w.watch.heap p = some m → m.id = id → m.alive = false) :
    { w with tick := some { t with list := list, inCallback := inCallback } }.Good := by
  have htick := h.tick t ht
  have hsub : ∀ i, i ∈ list → i ∈ t.list := fun i hi => hlist ▸ List.mem_cons_of_mem _ hi
  refine ⟨h.watch, h.told, h.logged, h.known, fun e he p hmissing m hp => ?_, h.broken, h.ticks,
    fun t' ht' => ?_⟩
  · obtain ⟨t', ht', hid⟩ := h.missing e he p hmissing m hp
    rw [ht] at ht'
    obtain rfl := Option.some.inj ht'
    exact ⟨_, rfl, hid⟩
  · obtain rfl := Option.some.inj ht'
    refine ⟨?_, fun i hi hmem => htick.removed i hi (hsub i hmem), htick.started,
      fun e he p hin m hp hmem => htick.done e he p hin m hp (hsub _ hmem),
      fun p hp m hm halive => ?_⟩
    · have := htick.nodup
      rw [hlist] at this
      exact (List.nodup_cons.1 this).2
    · rcases htick.due p hp m hm halive with hmem | hdone
      · rw [hlist] at hmem
        rcases List.mem_cons.1 hmem with hid | hmem
        · rw [hpass p m hm hid] at halive
          exact absurd halive Bool.false_ne_true
        · exact .inl hmem
      · exact .inr hdone

/-- What is found for a file that is not older is what is due. -/
theorem check_eq_due (m : Monitor) (halive : m.alive) {stat : Stat} (hold : stat.NotOlder m.mtime) :
    (m.check stat).2.filter (emits (m.check stat).1) = due m.id m.filename m.mtime stat := by
  cases stat with
  | error err => cases err <;> simp [Monitor.check, due, emits, halive]
  | ok mtime =>
    have hold : m.mtime ≤ mtime := hold
    by_cases heq : mtime = m.mtime
    · simp [Monitor.check, due, heq]
    · have hlt : m.mtime < mtime := by omega
      simp [Monitor.check, due, emits, heq, hlt, halive]

theorem Good.visit (h : w.Good) {list : List ℕ} (ht : w.tick = some t)
    (hlist : t.list = id :: list) (hid : w.watch.Known id) {stat : Stat}
    (hold : ∀ p m, w.watch.requests id = some p → w.watch.heap p = some m → m.alive →
      stat.NotOlder m.mtime) :
    ∃ w', w.visit t id list stat = some w' ∧ w'.Good := by
  have htick := h.tick t ht
  have hclosed : w.watch.alive = false → ∀ p, w.watch.heap p = none := by
    intro hclosed p
    refine Option.eq_none_iff_forall_ne_some.2 fun m hm => ?_
    have := (h.watch.listed p).2 ⟨m, hm⟩
    rw [h.watch.closed hclosed] at this
    exact List.not_mem_nil this
  rw [World.visit]
  cases hreq : w.watch.requests id with
  | none =>
    refine ⟨_, rfl, h.passed ht hlist fun p m hm hmid => ?_⟩
    cases hopen : w.watch.alive with
    | false =>
      rw [hclosed hopen] at hm
      simp at hm
    | true =>
      rw [(h.watch.tabled hopen id p).2 ⟨m, hm, hmid⟩] at hreq
      simp at hreq
  | some p =>
    have hopen : w.watch.alive := hid.resolve_right (by simp [hreq])
    obtain ⟨m, hp, hmid⟩ := (h.watch.tabled hopen id p).1 hreq
    simp only [hp, Option.map_some]
    refine ⟨_, rfl, ?_⟩
    cases halive : m.alive with
    | false =>
      simp only [Bool.not_false, if_true]
      refine h.passed ht hlist fun q m' hm' hmid' => ?_
      have hq := (h.watch.tabled hopen id q).2 ⟨m', hm', hmid'⟩
      rw [hreq] at hq
      rw [← Option.some.inj hq, hp] at hm'
      rw [← Option.some.inj hm', halive]
    | true =>
      simp only [Bool.not_true, Bool.false_eq_true, if_false]
      have hcheck := check_eq_due m halive (hold p m hreq hp halive)
      obtain ⟨hmid', hmfile⟩ :
          (m.check stat).1.id = m.id ∧ (m.check stat).1.filename = m.filename := by
        rcases stat with mtime | (- | - | - | code) <;> exact ⟨rfl, rfl⟩
      have hnone : ∀ e ∈ w.log, ¬ e.InTick w.ticks p ∧ ¬ e.Missing p ∧ ¬ e.Broken p := by
        have hlisted : m.id ∈ t.list := by simp [hlist, hmid]
        refine fun e he => ⟨fun hin => ?_, fun hmissing => ?_, fun hbroken => ?_⟩
        · exact htick.done e he p hin m hp hlisted
        · obtain ⟨t', ht', hremove⟩ := h.missing e he p hmissing m hp
          rw [ht] at ht'
          exact htick.removed _ (Option.some.inj ht' ▸ hremove) hlisted
        · rw [h.broken e he p hbroken m hp] at halive
          exact Bool.false_ne_true halive
      have hknown : FileWatch.known p w.log = some (m.id, m.filename, m.mtime) := by
        refine (h.known p m hp).resolve_left ?_
        rintro ⟨e, he, hmissing | hbroken⟩
        · exact (hnone e he).2.1 hmissing
        · exact (hnone e he).2.2 hbroken
      have hheap : ∀ q m₁, update w.watch.heap p (some (m.check stat).1) q = some m₁ →
          q = p ∧ m₁ = (m.check stat).1 ∨ q ≠ p ∧ w.watch.heap q = some m₁ := by
        intro q m₁ hq
        rcases eq_or_ne q p with rfl | hne
        · rw [update_self] at hq
          exact .inl ⟨rfl, (Option.some.inj hq).symm⟩
        · rw [update_of_ne hne] at hq
          exact .inr ⟨hne, hq⟩
      obtain ⟨hnotin, hnodup⟩ := List.nodup_cons.1 (hlist ▸ htick.nodup)
      have hsub : ∀ i, i ∈ list → i ∈ t.list := fun i hi => hlist ▸ List.mem_cons_of_mem _ hi
      refine ⟨h.watch.setMonitor hp hmid', ?_, ?_, fun q m₁ hq => ?_, ?_, ?_, ?_, fun t' ht' => ?_⟩
      · rw [hcheck]
        exact ⟨⟨m.id, m.filename, m.mtime, hknown, rfl⟩, hnone, h.told⟩
      · exact List.forall_mem_cons.2 ⟨h.watch.below p m hp, h.logged⟩
      · rcases hheap q m₁ hq with ⟨rfl, rfl⟩ | ⟨hne, hq⟩
        · cases stat with
          | error err =>
            refine .inl ⟨_, List.mem_cons_self .., ?_⟩
            cases err with
            | noent => exact .inl rfl
            | notdir => exact .inr rfl
            | nametoolong => exact .inr rfl
            | other code => exact .inr rfl
          | ok mtime =>
            refine .inr ?_
            rw [FileWatch.known, if_pos rfl, hknown]
            rfl
        · rcases h.known q m₁ hq with ⟨e, he, hfail⟩ | hsame
          · exact .inl ⟨e, List.mem_cons_of_mem _ he, hfail⟩
          · refine .inr ?_
            cases stat with
            | error err => exact hsame
            | ok mtime => exact (if_neg (Ne.symm hne)).trans hsame
      · refine List.forall_mem_cons.2 ⟨fun q hmissing m₁ hq => ?_, fun e he q hmissing m₁ hq => ?_⟩
        · obtain rfl : p = q := hmissing.monitor_eq
          have hstat : stat = .error .noent := by
            rcases stat with mtime | (- | - | - | code)
            · exact hmissing.elim
            · rfl
            · exact hmissing.elim
            · exact hmissing.elim
            · exact hmissing.elim
          refine ⟨_, rfl, ?_⟩
          rcases hheap p m₁ hq with ⟨-, rfl⟩ | ⟨hne, -⟩
          · rw [hmid', if_pos hstat]
            exact List.mem_cons_self ..
          · exact absurd rfl hne
        · rcases hheap q m₁ hq with ⟨rfl, -⟩ | ⟨-, hq⟩
          · exact absurd hmissing (hnone e he).2.1
          · obtain ⟨t', ht', hremove⟩ := h.missing e he q hmissing m₁ hq
            rw [ht] at ht'
            obtain rfl := Option.some.inj ht'
            refine ⟨_, rfl, ?_⟩
            dsimp only
            split_ifs
            · exact List.mem_cons_of_mem _ hremove
            · exact hremove
      · refine List.forall_mem_cons.2 ⟨fun q hbroken m₁ hq => ?_, fun e he q hbroken m₁ hq => ?_⟩
        · obtain rfl : p = q := hbroken.monitor_eq
          rcases hheap p m₁ hq with ⟨-, rfl⟩ | ⟨hne, -⟩
          · rcases stat with mtime | (- | - | - | code)
            · exact hbroken.elim
            · exact hbroken.elim
            · rfl
            · rfl
            · rfl
          · exact absurd rfl hne
        · rcases hheap q m₁ hq with ⟨rfl, -⟩ | ⟨-, hq⟩
          · exact absurd hbroken (hnone e he).2.2
          · exact h.broken e he q hbroken m₁ hq
      · exact List.forall_mem_cons.2 ⟨fun n q hin => hin.1 ▸ Nat.le_refl _, h.ticks⟩
      · obtain rfl := Option.some.inj ht'
        refine ⟨hnodup, fun i hi hmem => ?_, htick.started, ?_, fun q hq m₁ hm₁ halive₁ => ?_⟩
        · have hi : i = id ∨ i ∈ t.toRemove := by
            dsimp only at hi
            split_ifs at hi
            · rw [List.mem_cons, hmid] at hi
              exact hi
            · exact .inr hi
          rcases hi with rfl | hi
          · exact hnotin hmem
          · exact htick.removed i hi (hsub i hmem)
        · refine List.forall_mem_cons.2
            ⟨fun q hin m₁ hq hmem => ?_, fun e he q hin m₁ hq hmem => ?_⟩
          · obtain rfl : p = q := hin.2
            rcases hheap p m₁ hq with ⟨-, rfl⟩ | ⟨hne, -⟩
            · rw [hmid', hmid] at hmem
              exact hnotin hmem
            · exact absurd rfl hne
          · rcases hheap q m₁ hq with ⟨rfl, -⟩ | ⟨-, hq⟩
            · exact absurd hin (hnone e he).1
            · exact htick.done e he q hin m₁ hq (hsub _ hmem)
        · rcases hheap q m₁ hm₁ with ⟨rfl, -⟩ | ⟨hne, hm₁⟩
          · exact .inr ⟨_, List.mem_cons_self .., rfl, rfl⟩
          · rcases htick.due q hq m₁ hm₁ halive₁ with hmem | ⟨e, he, hin⟩
            · rw [hlist] at hmem
              rcases List.mem_cons.1 hmem with hid₁ | hmem
              · have hqreq := (h.watch.tabled hopen id q).2 ⟨m₁, hm₁, hid₁⟩
                rw [hreq] at hqreq
                exact absurd (Option.some.inj hqreq).symm hne
              · exact .inl hmem
            · exact .inr ⟨e, List.mem_cons_of_mem _ he, hin⟩

/-- The monitors whose files are missing are removed. -/
theorem removeAll_good {watch : Watch} (h : watch.Good) {ids : List ℕ}
    (hids : ∀ id ∈ ids, watch.Known id) :
    ∃ watch', removeAll watch ids = some watch' ∧ watch'.Good ∧ watch.Freed watch' ∧
      watch'.alive = watch.alive ∧ (∀ id ∈ ids, watch'.requests id = none) ∧
      ∀ id, watch.requests id = none → watch'.requests id = none := by
  induction ids generalizing watch with
  | nil =>
    exact ⟨watch, rfl, h, .refl _, rfl, fun _ hid => absurd hid List.not_mem_nil, fun _ => id⟩
  | cons id ids ih =>
    obtain ⟨hid, hids⟩ := List.forall_mem_cons.1 hids
    obtain ⟨watch₁, hcancel, h₁, hfreed₁, halive₁, hnone₁, hsame₁⟩ := h.cancelMonitor hid
    have hkeep : ∀ id', watch.requests id' = none → watch₁.requests id' = none := by
      intro id' hid'
      rcases eq_or_ne id' id with rfl | hne
      · exact hnone₁
      · rw [hsame₁ id' hne, hid']
    obtain ⟨watch', hremove, h', hfreed, halive, hnone, hsame⟩ := ih h₁ fun id' hid' =>
      (hids id' hid').imp (halive₁ ▸ ·) (hkeep id')
    refine ⟨watch', ?_, h', hfreed₁.trans hfreed, halive.trans halive₁,
      List.forall_mem_cons.2 ⟨hsame id hnone₁, hnone⟩, fun id' hid' => hsame id' (hkeep id' hid')⟩
    rw [removeAll]
    cases hreq : watch.requests id with
    | none =>
      rw [Watch.cancelMonitor, hreq] at hcancel
      rw [Option.some.inj hcancel]
      exact hremove
    | some p =>
      simp only [hcancel, Option.bind_some]
      exact hremove

theorem Good.endTick (h : w.Good) (ht : w.tick = some t)
    (hids : ∀ id ∈ t.toRemove, w.watch.Known id) :
    ∃ watch, removeAll w.watch t.toRemove = some watch ∧
      { w with watch := watch, tick := none }.Good := by
  obtain ⟨watch, hremove, hgood, hfreed, halive, hnone, -⟩ := removeAll_good h.watch hids
  have h' := h.freed hgood hfreed
  refine ⟨watch, hremove, hgood, h.told, h'.logged, h'.known, fun e he p hmissing m hp => ?_,
    h'.broken, h.ticks, fun t ht => by simp at ht⟩
  obtain ⟨t', ht', hid⟩ := h'.missing e he p hmissing m hp
  have ht' : w.tick = some t' := ht'
  rw [ht] at ht'
  have hreq := hnone m.id (Option.some.inj ht' ▸ hid)
  cases hopen : watch.alive with
  | false =>
    have hmem := (hgood.listed p).2 ⟨m, hp⟩
    rw [hgood.closed hopen] at hmem
    exact absurd hmem List.not_mem_nil
  | true =>
    rw [(hgood.tabled hopen m.id p).2 ⟨m, hp, rfl⟩] at hreq
    simp at hreq

/-! ## Runs -/

/-- Nothing happens any more to the monitors that are gone. -/
structure Quiet (w w' : World) : Prop where
  nextPtr : w.watch.nextPtr ≤ w'.watch.nextPtr
  heap : ∀ p, p < w.watch.nextPtr → w.watch.heap p = none → w'.watch.heap p = none
  log : ∃ new, w'.log = new ++ w.log ∧
    ∀ e ∈ new, ∀ p, p < w.watch.nextPtr → w.watch.heap p = none → e.monitor ≠ p

theorem Quiet.refl (w : World) : w.Quiet w :=
  ⟨Nat.le_refl _, fun _ _ => id, [], rfl, fun _ he => absurd he List.not_mem_nil⟩

theorem Quiet.trans {w'' : World} (h : w.Quiet w') (h' : w'.Quiet w'') : w.Quiet w'' := by
  obtain ⟨new, hlog, hnew⟩ := h.log
  obtain ⟨new', hlog', hnew'⟩ := h'.log
  refine ⟨Nat.le_trans h.nextPtr h'.nextPtr, fun p hp hnone => ?_, new' ++ new, ?_,
    fun e he p hp hnone => ?_⟩
  · exact h'.heap p (Nat.lt_of_lt_of_le hp h.nextPtr) (h.heap p hp hnone)
  · rw [hlog', hlog, List.append_assoc]
  · rcases List.mem_append.1 he with he | he
    · exact hnew' e he p (Nat.lt_of_lt_of_le hp h.nextPtr) (h.heap p hp hnone)
    · exact hnew e he p hp hnone

theorem Quiet.of_freed (hfreed : w.watch.Freed w'.watch) (hlog : w'.log = w.log) : w.Quiet w' := by
  refine ⟨Nat.le_of_eq hfreed.nextPtr.symm, fun p _ hnone => ?_, [], hlog,
    fun _ he => absurd he List.not_mem_nil⟩
  rcases hfreed.heap p with heq | heq
  · rw [heq, hnone]
  · exact heq

theorem Quiet.of_same (hwatch : w'.watch = w.watch) (hlog : w'.log = w.log) : w.Quiet w' :=
  .of_freed (hwatch ▸ .refl _) hlog

/-- The steps in which the watch does what it is for: no file is older than it was, the ids that
are looked up are not those of monitors that a close has freed, and a new monitor does not get the
id of another one. -/
def Meets (w : World) : Input → Prop
  | .create _ (.ok _) =>
    w.mayCall → w.watch.alive → w.watch.requests (getNewMonitorId w.watch.lastId) = none
  | .cancel id => w.mayCall → w.watch.Known id
  | .visit stat => ∀ t ∈ w.tick, ∀ id ∈ t.list.head?, w.watch.Known id ∧
      ∀ p ∈ w.watch.requests id, ∀ m ∈ w.watch.heap p, m.alive → stat.NotOlder m.mtime
  | .endTick => ∀ t ∈ w.tick, t.list = [] → ∀ id ∈ t.toRemove, w.watch.Known id
  | _ => True

instance (w : World) : DecidablePred w.Meets
  | .create _ (.ok _) => inferInstanceAs (Decidable (_ → _))
  | .create _ (.error _) => inferInstanceAs (Decidable True)
  | .cancel _ => inferInstanceAs (Decidable (_ → _))
  | .close => inferInstanceAs (Decidable True)
  | .otherWatch => inferInstanceAs (Decidable True)
  | .beginTick => inferInstanceAs (Decidable True)
  | .visit stat => inferInstanceAs (Decidable (∀ t ∈ w.tick, ∀ id ∈ t.list.head?,
      w.watch.Known id ∧ ∀ p ∈ w.watch.requests id, ∀ m ∈ w.watch.heap p,
        m.alive = true → stat.NotOlder m.mtime))
  | .endTick => inferInstanceAs (Decidable (∀ t ∈ w.tick, t.list = [] → ∀ id ∈ t.toRemove,
      w.watch.Known id))

def MeetsRun (w : World) : List Input → Prop
  | [] => True
  | i :: is => w.Meets i ∧ ∀ w' ∈ w.step i, w'.MeetsRun is

instance decidableMeetsRun : ∀ (is : List Input) (w : World), Decidable (w.MeetsRun is)
  | [], _ => inferInstanceAs (Decidable True)
  | i :: is, w =>
    have := decidableMeetsRun is
    inferInstanceAs (Decidable (w.Meets i ∧ ∀ w' ∈ w.step i, w'.MeetsRun is))

theorem Good.step (h : w.Good) {i : Input} (hi : w.Meets i) :
    ∃ w', w.step i = some w' ∧ w'.Good ∧ w.Quiet w' := by
  cases i with
  | create filename stat =>
    rw [World.step]
    split_ifs with hcall
    · have hid : w.watch.alive → ∀ mtime, stat = .ok mtime →
          w.watch.requests (getNewMonitorId w.watch.lastId) = none := by
        rintro hopen mtime rfl
        exact hi hcall hopen
      obtain ⟨-, -, hnext, hheap, -⟩ := h.watch.createMonitor filename stat hid
      refine ⟨_, rfl, h.created filename stat hid, hnext, fun p hp hnone => ?_, ?_⟩
      · exact (hheap p (Nat.ne_of_lt hp)).trans hnone
      · cases hopen : w.watch.alive with
        | false => exact ⟨[], by simp [logCreated, hopen], fun _ he => absurd he List.not_mem_nil⟩
        | true =>
          cases stat with
          | error err => exact ⟨[], by simp [logCreated], fun _ he => absurd he List.not_mem_nil⟩
          | ok mtime =>
            refine ⟨[.created w.watch.nextPtr (getNewMonitorId w.watch.lastId) filename mtime],
              by simp [logCreated, hopen], fun e he p hp _ => ?_⟩
            rw [List.mem_singleton.1 he]
            exact Nat.ne_of_gt hp
    · exact ⟨w, rfl, h, .refl w⟩
  | cancel id =>
    rw [World.step]
    split_ifs with hcall
    · obtain ⟨watch, hcancel, hgood, hfreed, -⟩ := h.watch.cancelMonitor (hi hcall)
      rw [hcancel]
      exact ⟨_, rfl, h.freed hgood hfreed, .of_freed hfreed rfl⟩
    · exact ⟨w, rfl, h, .refl w⟩
  | close =>
    rw [World.step]
    split_ifs
    · obtain ⟨watch, hclose, hgood, hfreed, -⟩ := h.watch.close
      rw [hclose]
      exact ⟨_, rfl, h.freed hgood hfreed, .of_freed hfreed rfl⟩
    · exact ⟨w, rfl, h, .refl w⟩
  | otherWatch =>
    refine ⟨_, rfl, ⟨⟨⟨h.watch.below, h.watch.unnotified, h.watch.notified, h.watch.beyond⟩,
      h.watch.nodup, h.watch.listed, h.watch.tabled, h.watch.closed⟩, h.told, h.logged, h.known,
      h.missing, h.broken, h.ticks, fun t ht => ?_⟩,
      Nat.le_refl _, fun _ _ => id, [], rfl, fun _ he => absurd he List.not_mem_nil⟩
    have htick := h.tick t ht
    exact ⟨htick.nodup, htick.removed, htick.started, htick.done, htick.due⟩
  | beginTick =>
    rw [World.step]
    split_ifs with hbegin
    · obtain ⟨w', hw', hgood⟩ := h.beginTick hbegin.1 (Option.isNone_iff_eq_none.1 hbegin.2)
      refine ⟨w', hw', hgood, ?_⟩
      obtain ⟨list, -, rfl⟩ := Option.map_eq_some_iff.1 hw'
      exact .of_same rfl rfl
    · exact ⟨w, rfl, h, .refl w⟩
  | visit stat =>
    rw [World.step]
    cases ht : w.tick with
    | none => exact ⟨w, rfl, h, .refl w⟩
    | some t =>
      cases hlist : t.list with
      | nil => exact ⟨w, by simp [hlist], h, .refl w⟩
      | cons id list =>
        obtain ⟨hid, hold⟩ := hi t ht id (by simp [hlist])
        obtain ⟨w', hw', hgood⟩ := h.visit ht hlist hid fun p m hreq hp => hold p hreq m hp
        refine ⟨w', by simpa [hlist] using hw', hgood, ?_⟩
        rw [World.visit] at hw'
        cases hreq : w.watch.requests id with
        | none =>
          rw [hreq] at hw'
          rw [← Option.some.inj hw']
          exact .of_same rfl rfl
        | some p =>
          rw [hreq] at hw'
          obtain ⟨m, hp, rfl⟩ := Option.map_eq_some_iff.1 hw'
          cases halive : m.alive with
          | false => exact .of_same rfl rfl
          | true =>
            refine ⟨Nat.le_refl _, fun q _ hnone => ?_, [_], rfl, fun e he q _ hnone => ?_⟩
            · have hne : q ≠ p := by
                rintro rfl
                rw [hp] at hnone
                simp at hnone
              exact (update_of_ne hne ..).trans hnone
            · rw [List.mem_singleton.1 he]
              rintro rfl
              rw [Entry.monitor, hp] at hnone
              simp at hnone
  | endTick =>
    rw [World.step]
    cases ht : w.tick with
    | none => exact ⟨w, rfl, h, .refl w⟩
    | some t =>
      by_cases hlist : t.list = []
      · obtain ⟨watch, hremove, hgood⟩ := h.endTick ht (hi t ht hlist)
        obtain ⟨watch', hremove', -, hfreed, -⟩ := removeAll_good h.watch (hi t ht hlist)
        rw [hremove] at hremove'
        obtain rfl := Option.some.inj hremove'
        exact ⟨_, by simp [hlist, hremove], hgood, .of_freed hfreed rfl⟩
      · exact ⟨w, by simp [hlist], h, .refl w⟩

theorem Good.run (h : w.Good) {is : List Input} (his : w.MeetsRun is) :
    ∃ w', w.run is = some w' ∧ w'.Good ∧ w.Quiet w' := by
  induction is generalizing w with
  | nil => exact ⟨w, rfl, h, .refl w⟩
  | cons i is ih =>
    obtain ⟨w₁, hstep, h₁, hquiet₁⟩ := h.step his.1
    obtain ⟨w', hrun, h', hquiet⟩ := ih h₁ (his.2 w₁ hstep)
    exact ⟨w', by rw [World.run, hstep]; exact hrun, h', hquiet₁.trans hquiet⟩

theorem run_append (w : World) (is is' : List Input) :
    w.run (is ++ is') = (w.run is).bind fun w => w.run is' := by
  induction is generalizing w with
  | nil => rfl
  | cons i is ih =>
    rw [List.cons_append, run, run]
    cases w.step i with
    | none => rfl
    | some w => exact ih w

theorem MeetsRun.of_append {is is' : List Input} (h : w.MeetsRun (is ++ is')) :
    w.MeetsRun is ∧ ∀ w' ∈ w.run is, w'.MeetsRun is' := by
  induction is generalizing w with
  | nil =>
    refine ⟨trivial, fun w' hw' => ?_⟩
    rw [← Option.some.inj hw']
    exact h
  | cons i is ih =>
    refine ⟨⟨h.1, fun w₁ hw₁ => (ih (h.2 w₁ hw₁)).1⟩, fun w' hw' => ?_⟩
    obtain ⟨w₁, hstep, hrun⟩ := Option.bind_eq_some_iff.1 hw'
    exact (ih (h.2 w₁ hstep)).2 w' hrun

end World

/-- In every run in which no file is older than it was, no id is looked up that a monitor has which
a close has freed, and no new monitor gets the id of another one: no memory is reached that is
freed; every monitor gets the events that are due, and has had its turn at the end of a check if it
is still there; a monitor whose file was missing is gone then; nothing happens to a monitor that has
been cancelled or freed; and every `notify` runs once, that of all monitors when the watch is
closed. -/
theorem run_tells (lastId : ℕ) (is : List Input) (h : (World.new lastId).MeetsRun is) :
    ∃ w, (World.new lastId).run is = some w ∧ Told w.log ∧
      (∀ t, w.tick = some t → t.list = [] → ∀ p ∈ t.started, ∀ m, w.watch.heap p = some m →
        m.alive → ∃ e ∈ w.log, e.InTick w.ticks p) ∧
      (w.tick = none → ∀ e ∈ w.log, ∀ p, e.Missing p → w.watch.heap p = none) ∧
      (∀ is₁ is₂, is = is₁ ++ is₂ → ∃ w₁, (World.new lastId).run is₁ = some w₁ ∧ w₁.Quiet w) ∧
      (∀ p ∈ w.watch.monitors, w.watch.heap p ≠ none) ∧
      (w.watch.alive → ∀ id p, w.watch.requests id = some p → w.watch.heap p ≠ none) ∧
      (∀ p, w.watch.notified p = if p < w.watch.nextPtr ∧ w.watch.heap p = none then 1 else 0) ∧
      (w.watch.alive = false → ∀ p, w.watch.heap p = none) := by
  have hnew := World.Good.new lastId
  obtain ⟨w, hrun, hgood, -⟩ := hnew.run h
  refine ⟨w, hrun, hgood.told, ?_, ?_, ?_, ?_, ?_, fun p => ?_, fun hclosed p => ?_⟩
  · intro t ht hlist p hp m hm halive
    refine ((hgood.tick t ht).due p hp m hm halive).resolve_left ?_
    rw [hlist]
    exact List.not_mem_nil
  · intro htick e he p hmissing
    refine Option.eq_none_iff_forall_ne_some.2 fun m hm => ?_
    obtain ⟨t, ht, -⟩ := hgood.missing e he p hmissing m hm
    rw [htick] at ht
    simp at ht
  · rintro is₁ is₂ rfl
    obtain ⟨h₁, h₂⟩ := h.of_append
    obtain ⟨w₁, hrun₁, hgood₁, -⟩ := hnew.run h₁
    obtain ⟨w', hrun', -, hquiet⟩ := hgood₁.run (h₂ w₁ hrun₁)
    rw [World.run_append, hrun₁, Option.bind_some, hrun'] at hrun
    exact ⟨w₁, hrun₁, Option.some.inj hrun ▸ hquiet⟩
  · intro p hp hnone
    obtain ⟨m, hm⟩ := (hgood.watch.listed p).1 hp
    rw [hnone] at hm
    simp at hm
  · intro hopen id p hreq hnone
    obtain ⟨m, hm, -⟩ := (hgood.watch.tabled hopen id p).1 hreq
    rw [hnone] at hm
    simp at hm
  · split_ifs with hfreed
    · exact hgood.watch.notified p hfreed.1 hfreed.2
    · rcases Nat.lt_or_ge p w.watch.nextPtr with hp | hp
      · obtain ⟨m, hm⟩ := Option.ne_none_iff_exists'.1 fun hnone => hfreed ⟨hp, hnone⟩
        exact hgood.watch.unnotified p m hm
      · exact hgood.watch.beyond p hp
  · refine Option.eq_none_iff_forall_ne_some.2 fun m hm => ?_
    have hmem := (hgood.watch.listed p).2 ⟨m, hm⟩
    rw [hgood.watch.closed hclosed] at hmem
    exact List.not_mem_nil hmem

/-- A callback cancels a monitor, a file is missing, and the watch is closed after the check. -/
theorem run_tells_two_checks :
    let is : List Input := [.create "a" (.ok 1), .create "b" (.ok 1), .create "c" (.ok 1),
      .beginTick, .visit (.ok 2), .cancel 2, .visit (.ok 7), .visit (.error .noent), .endTick,
      .beginTick, .visit (.ok 2), .endTick, .close]
    (World.new 0).MeetsRun is ∧ ((World.new 0).run is).map (·.log) =
        some [.turn 2 0 (.ok 2) none, .turn 1 2 (.error .noent) (some ⟨.deleted, 3, "c", none⟩),
          .turn 1 0 (.ok 2) (some ⟨.changed, 1, "a", none⟩), .created 2 3 "c" 1,
          .created 1 2 "b" 1, .created 0 1 "a" 1] ∧
      ∃ w, (World.new 0).run is = some w ∧ Told w.log :=
  have h : (World.new 0).MeetsRun [.create "a" (.ok 1), .create "b" (.ok 1), .create "c" (.ok 1),
      .beginTick, .visit (.ok 2), .cancel 2, .visit (.ok 7), .visit (.error .noent), .endTick,
      .beginTick, .visit (.ok 2), .endTick, .close] := by decide
  ⟨h, by decide, (run_tells 0 _ h).imp fun _ hw => ⟨hw.1, hw.2.1⟩⟩

/-- A file that is older than it was is not told, and a check goes on with a monitor that a callback
has freed by closing the watch. -/
theorem run_loses_older_file_and_reaches_freed :
    ((World.new 0).run [.create "a" (.ok 5), .beginTick, .visit (.ok 3)]).map (·.log) =
        some [.turn 1 0 (.ok 3) none, .created 0 1 "a" 5] ∧
      due 1 "a" 5 (.ok 3) = some ⟨.changed, 1, "a", none⟩ ∧
      ((World.new 0).run [.create "a" (.ok 1), .create "b" (.ok 1), .beginTick, .visit (.ok 2),
        .close, .visit (.ok 2)]).isNone := by
  decide

end Medit.FileWatch
