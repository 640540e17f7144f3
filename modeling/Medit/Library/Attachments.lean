import Mathlib.Data.Finset.Insert
import Mathlib.Data.Finset.Erase
import Mathlib.Data.Finset.Dedup

/-!
# Attaching and detaching

A client is started, then attached to hosts and to the items in them, and given an object of its
own for each host and item that it wants one for. It is detached in the opposite order: the items
of a host before the host, the object before its host or item, everything before it is stopped.

## Main definitions

* `Attachments.Call` — what a client is told.
* `Attachments.Held` — what a client that was started is attached to.
* `Attachments.follows` — the calls keep to this order; the result is what is held after them.

## Main results

* `Attachments.follows_concat` — one more call.
* `Attachments.accept_attachItem`, `Attachments.accept_detachHost`, … — when it keeps to the order.
-/

namespace Attachments

/-- What a client is told. `ok` is its answer. -/
inductive Call (H I : Type*)
  | init (ok : Bool)
  | deinit
  | attachHost (h : H)
  | createHost (h : H) (ok : Bool)
  | destroyHost (h : H)
  | detachHost (h : H)
  | attachItem (h : Option H) (i : I)
  | createItem (h : Option H) (i : I) (ok : Bool)
  | destroyItem (h : Option H) (i : I)
  | detachItem (h : Option H) (i : I)
deriving DecidableEq

/-- The hosts and items a client is attached to, and those it has an object for. -/
structure Held (H I : Type*) where
  hosts : Finset H
  hostObjects : Finset H
  items : Finset (Option H × I)
  itemObjects : Finset I
deriving DecidableEq

variable {H I : Type*}

/-- Nothing held. -/
def Held.empty : Held H I := ⟨∅, ∅, ∅, ∅⟩

variable [DecidableEq H] [DecidableEq I]

/-- A call to a client that was started. -/
def Held.accept (s : Held H I) : Call H I → Option (Option (Held H I))
  | .init _ => none
  | .deinit => if s = .empty then some none else none
  | .attachHost h => if h ∉ s.hosts then some (some { s with hosts := insert h s.hosts }) else none
  | .createHost h ok =>
    if h ∈ s.hosts ∧ h ∉ s.hostObjects ∧ ∀ x ∈ s.items, x.1 ≠ some h then
      some (some (if ok then { s with hostObjects := insert h s.hostObjects } else s))
    else none
  | .destroyHost h =>
    if h ∈ s.hostObjects ∧ ∀ x ∈ s.items, x.1 ≠ some h then
      some (some { s with hostObjects := s.hostObjects.erase h })
    else none
  | .detachHost h =>
    if h ∈ s.hosts ∧ h ∉ s.hostObjects ∧ ∀ x ∈ s.items, x.1 ≠ some h then
      some (some { s with hosts := s.hosts.erase h })
    else none
  | .attachItem h i =>
    if (∀ x ∈ h, x ∈ s.hosts) ∧ ∀ x ∈ s.items, x.2 ≠ i then
      some (some { s with items := insert (h, i) s.items })
    else none
  | .createItem h i ok =>
    if (h, i) ∈ s.items ∧ i ∉ s.itemObjects then
      some (some (if ok then { s with itemObjects := insert i s.itemObjects } else s))
    else none
  | .destroyItem h i =>
    if (h, i) ∈ s.items ∧ i ∈ s.itemObjects then
      some (some { s with itemObjects := s.itemObjects.erase i })
    else none
  | .detachItem h i =>
    if (h, i) ∈ s.items ∧ i ∉ s.itemObjects then
      some (some { s with items := s.items.erase (h, i) })
    else none

/-- A call to a client, which holds nothing at all while it is stopped. -/
def accept (s : Option (Held H I)) (c : Call H I) : Option (Option (Held H I)) :=
  match s, c with
  | none, .init ok => some (if ok then some .empty else none)
  | none, _ => none
  | some s, c => s.accept c

/-- The calls keep to the order, from a client that is stopped. -/
def follows (calls : List (Call H I)) : Option (Option (Held H I)) := calls.foldlM accept none

theorem follows_nil : follows ([] : List (Call H I)) = some none := rfl

theorem follows_concat {calls : List (Call H I)} {s : Option (Held H I)}
    (h : follows calls = some s) (c : Call H I) : follows (calls ++ [c]) = accept s c := by
  unfold follows at h ⊢
  rw [List.foldlM_append, h]
  simp

variable {s : Held H I} {h : H} {o : Option H} {i : I} {ok : Bool}

theorem accept_deinit : accept (some (.empty : Held H I)) .deinit = some none := by
  simp [accept, Held.accept]

theorem accept_attachHost (hh : h ∉ s.hosts) :
    accept (some s) (.attachHost h) = some (some { s with hosts := insert h s.hosts }) :=
  if_pos hh

theorem accept_createHost (hh : h ∈ s.hosts) (hobj : h ∉ s.hostObjects)
    (hitems : ∀ x ∈ s.items, x.1 ≠ some h) :
    accept (some s) (.createHost h ok) =
      some (some (if ok then { s with hostObjects := insert h s.hostObjects } else s)) :=
  if_pos ⟨hh, hobj, hitems⟩

theorem accept_destroyHost (hobj : h ∈ s.hostObjects) (hitems : ∀ x ∈ s.items, x.1 ≠ some h) :
    accept (some s) (.destroyHost h) =
      some (some { s with hostObjects := s.hostObjects.erase h }) := if_pos ⟨hobj, hitems⟩

theorem accept_detachHost (hh : h ∈ s.hosts) (hobj : h ∉ s.hostObjects)
    (hitems : ∀ x ∈ s.items, x.1 ≠ some h) :
    accept (some s) (.detachHost h) = some (some { s with hosts := s.hosts.erase h }) :=
  if_pos ⟨hh, hobj, hitems⟩

theorem accept_attachItem (ho : ∀ x ∈ o, x ∈ s.hosts) (hi : ∀ x ∈ s.items, x.2 ≠ i) :
    accept (some s) (.attachItem o i) = some (some { s with items := insert (o, i) s.items }) :=
  if_pos ⟨ho, hi⟩

theorem accept_createItem (hi : (o, i) ∈ s.items) (hobj : i ∉ s.itemObjects) :
    accept (some s) (.createItem o i ok) =
      some (some (if ok then { s with itemObjects := insert i s.itemObjects } else s)) :=
  if_pos ⟨hi, hobj⟩

theorem accept_destroyItem (hi : (o, i) ∈ s.items) (hobj : i ∈ s.itemObjects) :
    accept (some s) (.destroyItem o i) =
      some (some { s with itemObjects := s.itemObjects.erase i }) := if_pos ⟨hi, hobj⟩

theorem accept_detachItem (hi : (o, i) ∈ s.items) (hobj : i ∉ s.itemObjects) :
    accept (some s) (.detachItem o i) = some (some { s with items := s.items.erase (o, i) }) :=
  if_pos ⟨hi, hobj⟩

end Attachments
