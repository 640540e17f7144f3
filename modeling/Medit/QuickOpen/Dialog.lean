import Mathlib.Algebra.Group.Nat.Defs
import Mathlib.Algebra.GroupWithZero.Nat
import Mathlib.Algebra.Ring.Int.Defs
import Mathlib.Data.List.Basic
import Medit.Library.Machine

/-!
# The Quick Open dialog

Translation of `plugins/mooquickopen.cpp`: what is typed is ranked against the files of the project
in a thread, and the rows of the list come when the ranking is done. The index of files answers at
once, later, or both. The ranking itself and the regular expression for file names with lines are
parameters.

## Main definitions

* `QuickOpen` — the dialog, the rankings that run, and what has been opened.
* `QuickOpen.step` — what happens to it.
* `QuickOpen.Allowed` — rows are opened when they are those of the last query, and no timeout comes
  after the dialog.

## Main results

* `QuickOpen.opens_right` — a row is opened at the line of the query it belongs to.
-/

namespace Medit

abbrev FileList := List (List Char)

/-- What is outside of the dialog: `_moo_parse_file_line`, and `quick_open_rank` with its candidates,
which are the files and what `Extra` says about documents and the history. -/
structure QuickOpenEnv (Extra : Type*) where
  parseFileLine : List Char → Option (List Char × ℤ)
  rank : List Char → Option FileList → Extra → List (List Char)

/-- `QUICK_OPEN_MAX_VISIBLE` -/
def quickOpenMaxVisible : ℕ := 50

/-- A query without its line, and the line from 0, or -1. -/
structure QuickOpenQuery where
  text : List Char
  line : ℤ
deriving DecidableEq

/-- A ranking that runs. The line of the query is not in the source. -/
structure RankTask (Extra : Type*) where
  generation : ℕ
  query : QuickOpenQuery
  files : Option FileList
  extra : Extra

/-- A row that has been opened, at a line, with the query of the rows and the last one. -/
structure Opening where
  path : List Char
  line : ℤ
  rows : QuickOpenQuery
  query : QuickOpenQuery
deriving DecidableEq

/-- The dialog. `generation` is a `guint`; `ranks` are the rankings that run, and `indexRequests` are
the callbacks that the index has. The rest is not in the source: `current` is the query for which a
ranking was started last, or the list filled; `shown` is the one of the rows; `landed` has the
queries of the rankings that were put into the list, each with the one that was current; and
`touched` says that something was done to a destroyed dialog. -/
structure QuickOpen (Extra : Type*) where
  text : List Char
  rows : List (List Char)
  targetLine : ℤ
  changedTimeout : Bool
  animTimeout : Bool
  rankGeneration : ℕ
  alive : Bool
  running : Bool
  ranks : List (RankTask Extra)
  indexRequests : ℕ
  current : QuickOpenQuery
  shown : QuickOpenQuery
  landed : List (QuickOpenQuery × QuickOpenQuery)
  opened : List Opening
  touched : Bool

/-- `quick_open_split_line` -/
def QuickOpenEnv.splitLine {Extra : Type*} (env : QuickOpenEnv Extra) (query : List Char) :
    QuickOpenQuery :=
  match if query = [] then none else env.parseFileLine query with
  | some (path, line) => ⟨path, line - 1⟩
  | none => ⟨query, -1⟩

namespace QuickOpen

variable {Extra : Type*}

/-- The rows of a ranking. -/
def rankRows (env : QuickOpenEnv Extra) (query : List Char) (files : Option FileList)
    (extra : Extra) : List (List Char) :=
  (env.rank query files extra).take quickOpenMaxVisible

/-- Something is done to the dialog. -/
def touch (dlg : QuickOpen Extra) : QuickOpen Extra :=
  { dlg with touched := dlg.touched || !dlg.alive }

/-- `++dlg->rank_generation` -/
def nextGeneration (dlg : QuickOpen Extra) : ℕ := (dlg.rankGeneration + 1) % 2 ^ 32

/-- The list is filled with documents and the history, for a query without text, and rankings that
run are superseded. -/
def fill (env : QuickOpenEnv Extra) (dlg : QuickOpen Extra) (line : ℤ) (extra : Extra) :
    QuickOpen Extra :=
  { dlg.touch with
    rankGeneration := dlg.nextGeneration
    rows := rankRows env [] none extra
    targetLine := line
    animTimeout := false
    current := ⟨[], line⟩
    shown := ⟨[], line⟩ }

/-- `quick_open_dispatch_rank` -/
def dispatchRank (env : QuickOpenEnv Extra) (dlg : QuickOpen Extra) (query : List Char)
    (files : Option FileList) (extra : Extra) : QuickOpen Extra :=
  let clean := env.splitLine query
  if clean.text = [] then dlg.fill env clean.line extra
  else
    { dlg.touch with
      targetLine := clean.line
      rankGeneration := dlg.nextGeneration
      ranks := dlg.ranks ++ [⟨dlg.nextGeneration, clean, files, extra⟩]
      animTimeout := true
      current := clean }

/-- `quick_open_run_query`, with the list that the index gives at once, and whether it calls back. -/
def runQuery (env : QuickOpenEnv Extra) (dlg : QuickOpen Extra) (cached : Option FileList)
    (pending : Bool) (extra : Extra) : QuickOpen Extra :=
  if dlg.text = [] then dlg.fill env (env.splitLine []).line extra
  else
    let dlg : QuickOpen Extra :=
      { dlg.touch with
        indexRequests := dlg.indexRequests + if pending then 1 else 0
        animTimeout := true }
    match cached with
    | none => dlg
    | some files => dlg.dispatchRank env dlg.text (some files) extra

/-- `quick_open_index_ready` -/
def indexReady (env : QuickOpenEnv Extra) (dlg : QuickOpen Extra) (files : Option FileList)
    (extra : Extra) : QuickOpen Extra :=
  let dlg := { dlg with indexRequests := dlg.indexRequests - 1 }
  if dlg.alive then dlg.dispatchRank env dlg.text files extra else dlg

/-- `quick_open_rank_done` -/
def rankDone (env : QuickOpenEnv Extra) (dlg : QuickOpen Extra) (i : ℕ) : QuickOpen Extra :=
  match dlg.ranks[i]? with
  | none => dlg
  | some req =>
    let dlg := { dlg with ranks := dlg.ranks.eraseIdx i }
    if dlg.alive ∧ req.generation = dlg.rankGeneration then
      { dlg.touch with
        rows := rankRows env req.query.text req.files req.extra
        animTimeout := false
        shown := req.query
        landed := dlg.landed ++ [(req.query, dlg.current)] }
    else dlg

/-- `quick_open_entry_changed` -/
def entryChanged (dlg : QuickOpen Extra) (text : List Char) : QuickOpen Extra :=
  { dlg with text := text, changedTimeout := true }

/-- `quick_open_open_selected`, with a row that is selected. -/
def openSelected (dlg : QuickOpen Extra) (i : ℕ) : QuickOpen Extra :=
  match dlg.rows[i]? with
  | none => dlg
  | some path =>
    if path = [] then dlg
    else
      { dlg with
        opened := dlg.opened ++ [⟨path, dlg.targetLine, dlg.shown, dlg.current⟩]
        alive := false }

/-- The dialog of `quick_open_activate` before it is filled. -/
def blank : QuickOpen Extra :=
  ⟨[], [], -1, false, false, 0, true, true, [], 0, ⟨[], -1⟩, ⟨[], -1⟩, [], [], false⟩

/-- `quick_open_activate`, up to the main loop. -/
def activate (env : QuickOpenEnv Extra) (extra : Extra) : QuickOpen Extra :=
  (blank : QuickOpen Extra).runQuery env none false extra

end QuickOpen

/-- What happens to the dialog. -/
inductive QuickOpenEvent (Extra : Type*)
  | entryChanged (text : List Char)
  | changedTimeout (cached : Option FileList) (pending : Bool) (extra : Extra)
  | animTick
  | indexReady (files : Option FileList) (extra : Extra)
  | rankDone (i : ℕ)
  | openSelected (i : ℕ)
  | close
  | mainQuit

namespace QuickOpen

variable {Extra : Type*} {env : QuickOpenEnv Extra} {dlg : QuickOpen Extra}

/-- What happens. Timeouts are there until the main loop ends, which is after the event that has
destroyed the dialog and what else is ready then. -/
def step (env : QuickOpenEnv Extra) (dlg : QuickOpen Extra) : QuickOpenEvent Extra → QuickOpen Extra
  | .entryChanged text => if dlg.alive then dlg.entryChanged text else dlg
  | .changedTimeout cached pending extra =>
    if dlg.running ∧ dlg.changedTimeout then
      { dlg with changedTimeout := false }.runQuery env cached pending extra
    else dlg
  | .animTick => if dlg.running ∧ dlg.animTimeout then dlg.touch else dlg
  | .indexReady files extra => if dlg.indexRequests = 0 then dlg else dlg.indexReady env files extra
  | .rankDone i => dlg.rankDone env i
  | .openSelected i => if dlg.alive then dlg.openSelected i else dlg
  | .close => { dlg with alive := false }
  | .mainQuit =>
    if dlg.alive then dlg
    else { dlg with running := false, changedTimeout := false, animTimeout := false }

/-- The next generation is not the one of a ranking that runs, which takes `2 ^ 32` of them. -/
def Fresh (dlg : QuickOpen Extra) : Prop := ∀ r ∈ dlg.ranks, r.generation ≠ dlg.nextGeneration

/-- A row is opened when no ranking for another query runs that will replace the rows, no timeout is
dispatched after the dialog was destroyed, and the generations do not come again too soon. -/
def Allowed (dlg : QuickOpen Extra) : QuickOpenEvent Extra → Prop
  | .changedTimeout _ _ _ => dlg.alive ∧ dlg.Fresh
  | .animTick => dlg.alive
  | .indexReady _ _ => dlg.Fresh
  | .openSelected _ => ∀ r ∈ dlg.ranks, r.generation = dlg.rankGeneration → r.query = dlg.shown
  | _ => True

/-! ## What holds in every state -/

structure Inv (env : QuickOpenEnv Extra) (dlg : QuickOpen Extra) : Prop where
  line : dlg.targetLine = dlg.current.line
  latest : ∀ r ∈ dlg.ranks, r.generation = dlg.rankGeneration → r.query = dlg.current
  settled : dlg.alive → dlg.shown ≠ dlg.current →
    ∃ r ∈ dlg.ranks, r.generation = dlg.rankGeneration
  rows : ∃ files extra, dlg.rows = rankRows env dlg.shown.text files extra
  landed : ∀ p ∈ dlg.landed, p.1 = p.2
  opened : ∀ o ∈ dlg.opened, o.rows = o.query ∧ o.line = o.query.line
  touched : dlg.touched = false

theorem Inv.fill (h : dlg.Inv env) (halive : dlg.alive) (hfresh : dlg.Fresh) (line : ℤ)
    (extra : Extra) : (dlg.fill env line extra).Inv env := by
  obtain ⟨-, -, -, -, hlanded, hopened, htouched⟩ := h
  refine ⟨rfl, fun r hr heq => absurd heq (hfresh r hr), fun _ hne => absurd rfl hne,
    ⟨none, extra, rfl⟩, hlanded, hopened, ?_⟩
  simp [QuickOpen.fill, touch, htouched, halive]

theorem Inv.dispatchRank (h : dlg.Inv env) (halive : dlg.alive) (hfresh : dlg.Fresh)
    (query : List Char) (files : Option FileList) (extra : Extra) :
    (dlg.dispatchRank env query files extra).Inv env := by
  unfold QuickOpen.dispatchRank
  simp only
  split
  · exact h.fill halive hfresh _ extra
  · obtain ⟨-, -, -, hrows, hlanded, hopened, htouched⟩ := h
    refine ⟨rfl, fun r hr heq => ?_, fun _ _ =>
      ⟨⟨dlg.nextGeneration, env.splitLine query, files, extra⟩, by simp, rfl⟩, hrows, hlanded,
      hopened, by simp [touch, htouched, halive]⟩
    rcases List.mem_append.1 hr with hr | hr
    · exact absurd heq (hfresh r hr)
    · exact (List.mem_singleton.1 hr).symm ▸ rfl

theorem Inv.runQuery (h : dlg.Inv env) (halive : dlg.alive) (hfresh : dlg.Fresh)
    (cached : Option FileList) (pending : Bool) (extra : Extra) :
    (dlg.runQuery env cached pending extra).Inv env := by
  unfold QuickOpen.runQuery
  split
  · exact h.fill halive hfresh _ extra
  · have htouch : ∀ n, ({ dlg.touch with indexRequests := n, animTimeout := true } :
        QuickOpen Extra).Inv env := fun n =>
      ⟨h.line, h.latest, h.settled, h.rows, h.landed, h.opened, by simp [touch, h.touched, halive]⟩
    cases cached with
    | none => exact htouch _
    | some files => exact (htouch _).dispatchRank halive hfresh _ _ extra

theorem Inv.rankDone (h : dlg.Inv env) (i : ℕ) : (dlg.rankDone env i).Inv env := by
  obtain ⟨hline, hlatest, hsettled, hrows, hlanded, hopened, htouched⟩ := h
  unfold QuickOpen.rankDone
  split
  · exact ⟨hline, hlatest, hsettled, hrows, hlanded, hopened, htouched⟩
  next req hreq =>
  have hmem : req ∈ dlg.ranks := List.mem_of_getElem? hreq
  have hsub : ∀ r ∈ dlg.ranks.eraseIdx i, r ∈ dlg.ranks := fun r => List.mem_of_mem_eraseIdx
  simp only
  split
  · next hdone =>
    have hquery : req.query = dlg.current := hlatest req hmem hdone.2
    refine ⟨hline, fun r hr => hlatest r (hsub r hr), fun _ hne => absurd hquery hne,
      ⟨req.files, req.extra, rfl⟩, fun p hp => ?_, hopened, by simp [touch, htouched, hdone.1]⟩
    rcases List.mem_append.1 hp with hp | hp
    · exact hlanded p hp
    · exact List.mem_singleton.1 hp ▸ hquery
  · next hstale =>
    -- the ranking that will replace the rows is another one
    refine ⟨hline, fun r hr => hlatest r (hsub r hr), fun halive hne => ?_, hrows, hlanded, hopened,
      htouched⟩
    obtain ⟨r, hr, hgen⟩ := hsettled halive hne
    refine ⟨r, ?_, hgen⟩
    obtain ⟨j, hj⟩ := List.getElem?_of_mem hr
    have hij : j ≠ i := by
      rintro rfl
      obtain rfl : req = r := Option.some.inj (hreq.symm.trans hj)
      exact hstale ⟨halive, hgen⟩
    exact List.mem_eraseIdx_iff_getElem?.2 ⟨j, hij, hj⟩

theorem Inv.openSelected (h : dlg.Inv env) (halive : dlg.alive) {i : ℕ}
    (he : dlg.Allowed (.openSelected i)) : (dlg.openSelected i).Inv env := by
  obtain ⟨hline, hlatest, hsettled, hrows, hlanded, hopened, htouched⟩ := h
  unfold QuickOpen.openSelected
  split
  · exact ⟨hline, hlatest, hsettled, hrows, hlanded, hopened, htouched⟩
  · split
    · exact ⟨hline, hlatest, hsettled, hrows, hlanded, hopened, htouched⟩
    · refine ⟨hline, hlatest, by simp, hrows, hlanded, fun o ho => ?_, htouched⟩
      rcases List.mem_append.1 ho with ho | ho
      · exact hopened o ho
      · obtain rfl := List.mem_singleton.1 ho
        refine ⟨?_, hline⟩
        by_contra hne
        obtain ⟨r, hr, hgen⟩ := hsettled halive hne
        exact hne ((he r hr hgen).symm.trans (hlatest r hr hgen))

theorem Inv.step (h : dlg.Inv env) {e : QuickOpenEvent Extra} (he : dlg.Allowed e) :
    (dlg.step env e).Inv env := by
  have hkeep : ∀ {d : QuickOpen Extra}, d.Inv env → ∀ text changed anim requests running,
      ({ d with text := text, changedTimeout := changed, animTimeout := anim,
                indexRequests := requests, running := running } : QuickOpen Extra).Inv env :=
    fun hd _ _ _ _ _ => ⟨hd.line, hd.latest, hd.settled, hd.rows, hd.landed, hd.opened, hd.touched⟩
  cases e with
  | entryChanged text =>
    simp only [QuickOpen.step]
    split
    · exact hkeep h text true dlg.animTimeout dlg.indexRequests dlg.running
    · exact h
  | changedTimeout cached pending extra =>
    simp only [QuickOpen.step]
    split
    · exact (hkeep h dlg.text false dlg.animTimeout dlg.indexRequests dlg.running).runQuery he.1 he.2
        cached pending extra
    · exact h
  | animTick =>
    have halive : dlg.alive := he
    simp only [QuickOpen.step]
    split
    · exact ⟨h.line, h.latest, h.settled, h.rows, h.landed, h.opened, by
        simp [touch, h.touched, halive]⟩
    · exact h
  | indexReady files extra =>
    simp only [QuickOpen.step, QuickOpen.indexReady]
    split
    · exact h
    · have hless := hkeep h dlg.text dlg.changedTimeout dlg.animTimeout (dlg.indexRequests - 1)
        dlg.running
      split
      · next halive => exact hless.dispatchRank halive he _ files extra
      · exact hless
  | rankDone i => exact h.rankDone i
  | openSelected i =>
    simp only [QuickOpen.step]
    split
    · next halive => exact h.openSelected halive he
    · exact h
  | close => exact ⟨h.line, h.latest, by simp [QuickOpen.step], h.rows, h.landed, h.opened, h.touched⟩
  | mainQuit =>
    simp only [QuickOpen.step]
    split
    · exact h
    · exact hkeep h dlg.text false false dlg.indexRequests false

theorem Inv.activate (extra : Extra) : (activate env extra).Inv env := by
  refine ⟨?_, ?_, ?_, ⟨none, extra, ?_⟩, ?_, ?_, ?_⟩ <;>
    simp [QuickOpen.activate, QuickOpen.runQuery, QuickOpen.fill, blank, touch]

/-! ## Main results -/

/-- When rows are opened only with no ranking for another query on its way, and no timeout comes
after the dialog: a ranking is put into the list only when it is for the last query; what is opened
is a row of the last query, at its line; the rows are always those of one query; and nothing is done
to a dialog that was destroyed. -/
theorem opens_right {extra : Extra}
    (h : Machine.Reachable (step env) Allowed (activate env extra) dlg) :
    (∀ p ∈ dlg.landed, p.1 = p.2) ∧ (∀ o ∈ dlg.opened, o.rows = o.query ∧ o.line = o.query.line) ∧
      (∃ files extra, dlg.rows = rankRows env dlg.shown.text files extra) ∧
      dlg.targetLine = dlg.current.line ∧ dlg.touched = false := by
  have hinv : dlg.Inv env := h.invariant (.activate extra) fun _ _ he hinv => hinv.step he
  exact ⟨hinv.landed, hinv.opened, hinv.rows, hinv.line, hinv.touched⟩

/-- A line is given after a colon, and every file matches. -/
def envOfColon : QuickOpenEnv Unit where
  parseFileLine s :=
    match s.span (· ≠ ':') with
    | (path, ':' :: c :: _) => some (path, c.toNat - 48)
    | _ => none
  rank query files _ := if query = [] then [] else files.getD []

/-- A row is opened at the line of its query. -/
theorem opens_right_at_line :
    let dlg := [.entryChanged ['a', ':', '5'], .changedTimeout (some [['a']]) false (), .rankDone 0,
      .openSelected 0, .mainQuit].foldl (step envOfColon) (activate envOfColon ())
    dlg.opened = [⟨['a'], 4, ⟨['a'], 4⟩, ⟨['a'], 4⟩⟩] ∧ dlg.touched = false := by
  intro dlg
  have hedit : Machine.Reachable (step envOfColon) Allowed (activate envOfColon ())
      ((activate envOfColon ()).step envOfColon (.entryChanged ['a', ':', '5'])) :=
    .step .start trivial
  have hask := hedit.step (e := QuickOpenEvent.changedTimeout (some [['a']]) false ())
    ⟨rfl, fun r hr => by cases hr⟩
  have hrank := hask.step (e := QuickOpenEvent.rankDone 0) trivial
  have hopen := hrank.step (e := QuickOpenEvent.openSelected 0) fun r hr => by cases hr
  exact ⟨by decide, (opens_right (hopen.step (e := QuickOpenEvent.mainQuit) trivial)).2.2.2.2⟩

/-- A row of one query is opened at the line of the next one, whose ranking still runs; and what has
been typed is looked for when the dialog has been closed, as its timeout is ready too. -/
theorem opens_wrong :
    let dlg := [.entryChanged ['a', ':', '5'], .changedTimeout (some [['a']]) false (), .rankDone 0,
      .entryChanged ['b', ':', '7'], .changedTimeout (some [['b']]) false (),
      .openSelected 0].foldl (step envOfColon) (activate envOfColon ())
    let late := [.entryChanged ['a'], .close,
      .changedTimeout none true ()].foldl (step envOfColon) (activate envOfColon ())
    dlg.opened = [⟨['a'], 6, ⟨['a'], 4⟩, ⟨['b'], 6⟩⟩] ∧ late.touched = true := by
  decide

end QuickOpen

end Medit
