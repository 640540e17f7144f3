import Mathlib.Algebra.Order.Ring.Int

/-!
# Replicas of documents

A reader is told of documents that are opened, changed, saved and closed, and has the text of every
document that is open. What it may be told about one document is an opening, changes with higher and
higher versions and savings, and a closing, over and over.

## Main definitions

* `Replica.replay` — the version and the text that the reader has, if it was told nothing else.
* `Replica.Silent` — nothing is said about a document.

## Main results

* `Replica.replay_insert` — something is said earlier about a document that is not mentioned later.
-/

namespace Replica

variable {K V : Type*}

inductive Message (K V : Type*) where
  | opened (key : K) (version : ℤ) (text : V)
  | changed (key : K) (version : ℤ) (text : V)
  | saved (key : K)
  | closed (key : K)

def Message.key : Message K V → K
  | opened key _ _ => key
  | changed key _ _ => key
  | saved key => key
  | closed key => key

/-- What the reader has after one more message, if it may be told so. -/
def Message.apply : Message K V → Option (ℤ × V) → Option (Option (ℤ × V))
  | opened _ version text, none => some (some (version, text))
  | changed _ version text, some (old, _) => if old < version then some (some (version, text)) else none
  | saved _, some doc => some (some doc)
  | closed _, some _ => some none
  | _, _ => none

variable [DecidableEq K] {key : K} {pre post more : List (Message K V)} {m : Message K V}
  {doc doc' : Option (ℤ × V)}

/-- What the reader has of a document after some messages, if it may be told so. -/
def replayFrom (key : K) (doc : Option (ℤ × V)) (messages : List (Message K V)) :
    Option (Option (ℤ × V)) :=
  messages.foldlM (fun doc m => if m.key = key then m.apply doc else some doc) doc

def replay (key : K) (messages : List (Message K V)) : Option (Option (ℤ × V)) :=
  replayFrom key none messages

/-- Nothing is said about a document. -/
def Silent (key : K) (messages : List (Message K V)) : Prop := ∀ m ∈ messages, m.key ≠ key

@[simp] theorem replayFrom_nil : replayFrom key doc ([] : List (Message K V)) = some doc := rfl

theorem replayFrom_append :
    replayFrom key doc (pre ++ post) = (replayFrom key doc pre).bind (replayFrom key · post) :=
  List.foldlM_append

theorem replay_append : replay key (pre ++ post) = (replay key pre).bind (replayFrom key · post) :=
  replayFrom_append

theorem replayFrom_cons :
    replayFrom key doc (m :: post) =
      (if m.key = key then m.apply doc else some doc).bind (replayFrom key · post) :=
  List.foldlM_cons

theorem replayFrom_of_silent (h : Silent key post) : replayFrom key doc post = some doc := by
  induction post with
  | nil => rfl
  | cons m post ih =>
    rw [replayFrom_cons, if_neg (h m (by simp))]
    exact ih fun n hn => h n (List.mem_cons_of_mem m hn)

/-- One more message about a document. -/
theorem replay_concat (h : replay m.key pre = some doc) :
    replay m.key (pre ++ [m]) = m.apply doc := by
  rw [replay_append, h, Option.bind_some, replayFrom_cons, if_pos rfl]
  cases m.apply doc <;> rfl

/-- One more message about another document. -/
theorem replay_concat_ne (h : m.key ≠ key) : replay key (pre ++ [m]) = replay key pre := by
  rw [replay_append]
  have hm : ∀ doc : Option (ℤ × V), replayFrom key doc [m] = some doc := fun doc =>
    replayFrom_of_silent (by simpa [Silent] using h)
  cases replay key pre with
  | none => rfl
  | some doc => exact hm doc

/-- Something is said about another document, earlier. -/
theorem replay_insert_ne (h : m.key ≠ key) :
    replay key (pre ++ m :: post) = replay key (pre ++ post) := by
  rw [List.append_cons, replay_append, replay_concat_ne h, ← replay_append]

/-- Something is said about a document that is not mentioned later. -/
theorem replay_insert (h : replay m.key pre = some doc) (hpost : Silent m.key post) :
    replay m.key (pre ++ m :: post) = m.apply doc := by
  rw [List.append_cons, replay_append, replay_concat h]
  cases m.apply doc with
  | none => rfl
  | some doc => exact replayFrom_of_silent hpost

end Replica
