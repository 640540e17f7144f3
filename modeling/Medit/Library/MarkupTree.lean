import Mathlib.Data.List.Basic

/-!
# Markup

Markup as a parser reports it and as a tree. Names and texts are those without escapes: a writer
that escapes and a parser that undoes it are taken together.

## Main definitions

* `Markup` — a node with its children and the nodes after it.
* `MarkupEvent` — what a parser reports.
* `Markup.ofEvents` — a tree is built of what is reported.
* `Markup.elements`, `Markup.strip` — the elements among nodes, and a tree without texts.

## Main results

* `Markup.strip_ofEvents` — but for its texts, a tree is built again of its own events.
-/

/-- Nodes one after another: elements with attributes and children, and texts. -/
inductive Markup
  | nil
  | element (name : String) (attrs : List (String × List UInt8)) (children next : Markup)
  | text (content : List UInt8) (next : Markup)
deriving DecidableEq

/-- What a parser reports. -/
inductive MarkupEvent
  | start (name : String) (attrs : List (String × List UInt8))
  | stop
  | text (content : List UInt8)
deriving DecidableEq

namespace Markup

/-- What is reported of nodes. -/
def events : Markup → List MarkupEvent
  | nil => []
  | element name attrs children next =>
    .start name attrs :: (children.events ++ .stop :: next.events)
  | text content next => .text content :: next.events

def append : Markup → Markup → Markup
  | nil, m => m
  | element name attrs children next, m => element name attrs children (next.append m)
  | text content next, m => text content (next.append m)

attribute [elab_as_elim] append.induct_unfolding

/-- Another text at the end, which goes on with a text that is the last node. -/
def addText : Markup → List UInt8 → Markup
  | nil, s => text s nil
  | text content nil, s => text (content ++ s) nil
  | element name attrs children next, s => element name attrs children (next.addText s)
  | text content next, s => text content (next.addText s)

/-- The nodes so far at a place in a tree, and the elements that are open around it. -/
structure Place where
  nodes : Markup
  above : List (String × List (String × List UInt8) × Markup)
deriving DecidableEq

def Place.step (p : Place) : MarkupEvent → Place
  | .start name attrs => ⟨nil, (name, attrs, p.nodes) :: p.above⟩
  | .stop =>
    match p.above with
    | [] => p
    | (name, attrs, before) :: above => ⟨before.append (element name attrs p.nodes nil), above⟩
  | .text content => ⟨p.nodes.addText content, p.above⟩

/-- The tree of what a parser has reported. -/
def ofEvents (events : List MarkupEvent) : Markup := (events.foldl Place.step ⟨nil, []⟩).nodes

/-- A node that is an element. -/
structure Element where
  name : String
  attrs : List (String × List UInt8)
  children : Markup
deriving DecidableEq

/-- The nodes that are elements. -/
def elements : Markup → List Element
  | nil => []
  | element name attrs children next => ⟨name, attrs, children⟩ :: next.elements
  | text _ next => next.elements

/-- The elements without any text. -/
def strip : Markup → Markup
  | nil => nil
  | element name attrs children next => element name attrs children.strip next.strip
  | text _ next => next.strip

/-! ## Building -/

theorem append_assoc (m n o : Markup) : (m.append n).append o = m.append (n.append o) := by
  induction m with
  | nil => rfl
  | element name attrs children next _ ih => simp only [append, ih]
  | text content next ih => simp only [append, ih]

theorem strip_append (m n : Markup) : (m.append n).strip = m.strip.append n.strip := by
  induction m with
  | nil => rfl
  | element name attrs children next _ ih => simp only [append, strip, ih]
  | text content next ih => simp only [append, strip, ih]

theorem append_nil (m : Markup) : m.append nil = m := by
  induction m with
  | nil => rfl
  | element name attrs children next _ ih => rw [append, ih]
  | text content next ih => rw [append, ih]

@[simp] theorem strip_addText (m : Markup) (s : List UInt8) : (m.addText s).strip = m.strip := by
  fun_induction addText m s <;> simp_all [strip]

/-- The nodes of a tree are put behind the nodes before them, with their texts somehow. -/
theorem foldl_events (m : Markup) (p : Place) : ∃ nodes : Markup,
    m.events.foldl Place.step p = ⟨nodes, p.above⟩ ∧ nodes.strip = p.nodes.strip.append m.strip := by
  induction m generalizing p with
  | nil => exact ⟨p.nodes, rfl, (append_nil _).symm⟩
  | element name attrs children next ihc ihn =>
    obtain ⟨inner, hinner, hstrip⟩ := ihc ⟨nil, (name, attrs, p.nodes) :: p.above⟩
    obtain ⟨nodes, hnodes, hnext⟩ :=
      ihn ⟨p.nodes.append (element name attrs inner nil), p.above⟩
    refine ⟨nodes, ?_, ?_⟩
    · rw [events, List.foldl_cons, List.foldl_append]
      simp only [Place.step] at hinner ⊢
      rw [hinner]
      exact hnodes
    · rw [hnext, strip_append, append_assoc]
      simp only [strip, append] at hstrip ⊢
      rw [hstrip]
  | text content next ih =>
    obtain ⟨nodes, hnodes, hnext⟩ := ih ⟨p.nodes.addText content, p.above⟩
    exact ⟨nodes, hnodes, by simpa [strip] using hnext⟩

/-- But for its texts, a tree is built again of its own events. -/
theorem strip_ofEvents (m : Markup) : (ofEvents m.events).strip = m.strip := by
  obtain ⟨nodes, hnodes, hstrip⟩ := foldl_events m ⟨nil, []⟩
  rw [ofEvents, hnodes]
  exact hstrip

theorem elements_strip (m : Markup) :
    m.strip.elements = m.elements.map fun e => { e with children := e.children.strip } := by
  induction m with
  | nil => rfl
  | element name attrs children next _ ih => simp [strip, elements, ih]
  | text content next ih => simpa [strip, elements] using ih

end Markup
