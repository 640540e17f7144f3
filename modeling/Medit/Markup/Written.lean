import Medit.Markup.Pretty

/-!
# What is written of a tree

The pieces that are written of a document, and the tree that a parser finds in them.

## Main definitions

* `pretty` — what is written of siblings.
* `spread`, `spreadTop` — the tree in it, with the white space that is written around elements.

## Main results

* `Holds.writePretty_eq` — a document is written as its tree is.
* `report_writePretty` — what a parser says of it.
-/

namespace Medit

open LinkedForest Function

/-- One of the siblings is an element. -/
def hasElement (k : Forest MooMarkupNode) : Bool := k.tops.any (·.type = .element)

/-- What is written of siblings. -/
def pretty (size : ℕ) : ℕ → Forest MooMarkupNode → List Written
  | _, .nil => []
  | indent, .node m k r =>
    (if m.type = .element then
      [.text (blanks indent), .start m.name m.attrs] ++
        (if !hasElement k && (k = .nil || m.content.isNone) then [.stop, .text newline]
        else if hasElement k then
          .text newline :: (pretty size (deeper size indent) k ++
            [.text (blanks indent), .stop, .text newline])
        else [.text (m.content.getD []), .stop, .text newline])
    else []) ++ pretty size indent r

namespace MooMarkupDoc

variable {mem : KeyedQueue.Allocator} {d : MooMarkupDoc} {t k r : Forest ℕ}

theorem tops_map {α β : Type*} {g : α → β} {f : Forest α} : (f.map g).tops = f.tops.map g := by
  induction f with
  | nil => rfl
  | node x k r _ ihr => simp [Forest.map, ihr]

theorem hasElement_map (k : Forest ℕ) : hasElement (k.map d.data) = k.tops.any d.isElement := by
  simp only [hasElement, tops_map, List.any_map]
  rfl

theorem writePrettyElements_eq (size : ℕ) {n indent : ℕ} {p q : Option ℕ}
    (hl : Siblings.Linked d.links p q k) (hk : k.nodes.length ≤ n)
    (hlive : k.nodes.length ≤ d.live.length) :
    (k.tops.filter d.isElement).flatMap (d.writePrettyElement size n indent) =
      pretty size indent (k.map d.data) := by
  induction k generalizing p q n indent with
  | nil => rfl
  | node x k r ihk ihr =>
    simp only [Forest.nodes_node, List.length_cons, List.length_append] at hk hlive
    obtain ⟨hx, hlk, hlr⟩ := hl
    have hrest : (r.tops.filter d.isElement).flatMap (d.writePrettyElement size n indent) =
        pretty size indent (r.map d.data) := ihr hlr (by omega) (by omega)
    have htops := Forest.tops_length_le (f := k)
    have hchildren : d.childrenOf x = k.tops := by
      rw [childrenOf, hx]
      exact walk_eq hlk (by omega)
    cases n with
    | zero => omega
    | succ n =>
      have hkids : (k.tops.filter d.isElement).flatMap
          (d.writePrettyElement size n (deeper size indent)) =
          pretty size (deeper size indent) (k.map d.data) := ihk hlk (by omega) (by omega)
      have hnil : (k.tops = [] ↔ k.map d.data = .nil) := by cases k <;> simp [Forest.map]
      rw [Forest.tops_node, Forest.map, pretty, ← hrest]
      by_cases helm : d.isElement x
      · have htype : (d.data x).type = .element := by simpa [isElement] using helm
        rw [List.filter_cons_of_pos helm, List.flatMap_cons, if_pos htype]
        congr 1
        simp only [writePrettyElement, hchildren, hasElement_map, ← hkids, hnil]
      · have htype : (d.data x).type ≠ .element := by simpa [isElement] using helm
        rw [List.filter_cons_of_neg helm, if_neg htype, List.nil_append]

theorem Holds.writePretty_eq (hh : d.Holds t) (size : ℕ) :
    d.writePretty size = header ++ pretty size 0 d.dom := by
  obtain ⟨hk, -⟩ := hh.linked.kidsOf hh.nodup hh.doc_mem
  have hlen := hh.kidsOf_length_le hh.doc_mem
  rw [writePretty, hh.childrenOf_eq hh.doc_mem, hh.dom_eq, writePrettyElements_eq size hk hlen hlen]

end MooMarkupDoc

/-! ## The tree in it -/

/-- The white space before an element or its end. -/
def space (indent : ℕ) : List UInt8 := newline ++ blanks indent

/-- What is inside of an element, with `children` as it is spread. -/
def inside (m : MooMarkupNode) (k : Forest MooMarkupNode) (children : Markup) (indent : ℕ) : Markup :=
  if hasElement k then children.append (.text (space indent) .nil)
  else if k = .nil ∨ m.content.getD [] = [] then .nil
  else .text (m.content.getD []) .nil

/-- The elements of siblings below an element, each after white space. -/
def spread (size : ℕ) : ℕ → Forest MooMarkupNode → Markup
  | _, .nil => .nil
  | indent, .node m k r =>
    if m.type = .element then
      .text (space indent) (.element m.name m.attrs
        (inside m k (spread size (deeper size indent) k) indent) (spread size indent r))
    else spread size indent r

/-- The elements of a document. -/
def spreadTop (size : ℕ) : Forest MooMarkupNode → Markup
  | .nil => .nil
  | .node m k r =>
    if m.type = .element then
      .element m.name m.attrs (inside m k (spread size (deeper size 0) k) 0) (spreadTop size r)
    else spreadTop size r

/-- What a parser says of nodes. -/
def parserEvents : Markup → List Written
  | .nil => []
  | .element name attrs children next =>
    .start name attrs :: (parserEvents children ++ .stop :: parserEvents next)
  | .text s next => .text s :: parserEvents next

theorem parserEvents_append (m n : Markup) :
    parserEvents (m.append n) = parserEvents m ++ parserEvents n := by
  induction m with
  | nil => rfl
  | element name attrs children next _ ih => simp [Markup.append, parserEvents, ih]
  | text s next ih => simp [Markup.append, parserEvents, ih]

/-- What is said of an element that has been started, up to its end. -/
theorem report_inside {size indent depth : ℕ} (m : MooMarkupNode) (k : Forest MooMarkupNode)
    (rest : List Written)
    (hk : ∀ rest, report (depth + 1) newline (pretty size (deeper size indent) k ++ rest) =
      parserEvents (spread size (deeper size indent) k) ++ report (depth + 1) newline rest) :
    report (depth + 1) [] ((if !hasElement k && (k = .nil || m.content.isNone) then
        [.stop, .text newline]
      else if hasElement k then
        .text newline :: (pretty size (deeper size indent) k ++
          [.text (blanks indent), .stop, .text newline])
      else [.text (m.content.getD []), .stop, .text newline]) ++ rest) =
      parserEvents (inside m k (spread size (deeper size indent) k) indent) ++ .stop ::
        report depth newline rest := by
  by_cases hdir : hasElement k
  · simp only [hdir, Bool.not_true, Bool.false_and, Bool.false_eq_true, if_false, if_true, inside,
      parserEvents_append, parserEvents, List.cons_append, List.append_assoc, report, List.nil_append,
      hk, Nat.add_sub_cancel]
    simp [newline, space]
  · have hdir' : hasElement k = false := by simpa using hdir
    by_cases hnil : k = .nil
    · simp [hnil, inside, hasElement, parserEvents, report]
    · cases hcontent : m.content with
      | none => simp [hdir', hnil, hcontent, inside, parserEvents, report]
      | some c =>
        by_cases hc : c = []
        · simp [hdir', hnil, hcontent, hc, inside, parserEvents, report]
        · simp [hdir', hnil, hcontent, hc, inside, parserEvents, report]

theorem report_pretty {size indent depth : ℕ} (f : Forest MooMarkupNode) (rest : List Written) :
    report (depth + 1) newline (pretty size indent f ++ rest) =
      parserEvents (spread size indent f) ++ report (depth + 1) newline rest := by
  induction f generalizing indent depth rest with
  | nil => rfl
  | node m k r ihk ihr =>
    rw [pretty, spread]
    by_cases helm : m.type = .element
    · rw [if_pos helm, if_pos helm, List.append_assoc, List.append_assoc, List.cons_append,
        List.cons_append, report, report, List.nil_append]
      rw [report_inside m k _ fun rest => ihk rest, ihr]
      simp [parserEvents, space, newline]
    · rw [if_neg helm, if_neg helm, List.nil_append, ihr]

theorem report_prettyTop {size : ℕ} (f : Forest MooMarkupNode) (acc : List UInt8) :
    report 0 acc (pretty size 0 f) = parserEvents (spreadTop size f) := by
  induction f generalizing acc with
  | nil => simp [pretty, spreadTop, report, parserEvents]
  | node m k r _ ihr =>
    rw [pretty, spreadTop]
    by_cases helm : m.type = .element
    · rw [if_pos helm, if_pos helm, List.append_assoc, List.cons_append, List.cons_append, report,
        report, List.nil_append, report_inside m k _ fun rest => report_pretty k rest, ihr]
      simp [parserEvents]
    · rw [if_neg helm, if_neg helm, List.nil_append, ihr]

/-- What a parser says of a document that is written. -/
theorem report_writePretty {d : MooMarkupDoc} {t : Forest ℕ} (hh : d.Holds t) (size : ℕ) :
    report 0 [] (d.writePretty size) = .passthrough MooMarkupDoc.declaration ::
      .passthrough MooMarkupDoc.modeComment :: parserEvents (spreadTop size d.dom) := by
  rw [hh.writePretty_eq, MooMarkupDoc.header]
  simp [report, report_prettyTop]

end Medit
