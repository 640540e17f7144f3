import Medit.Library.Leftmost
import Medit.Lsp.Symbols

/-!
# Signature help

Translation of `lsp-signature.cpp`: the markup that a reply to `textDocument/signatureHelp` is shown
as, with the parameter that is being typed in bold.

## Main definitions

* `signatureMarkup` — the markup of a reply.
* `read`, `firstPart` — what the first part of a markup shows, and what of it is bold.
* `Listed` — how a server names the parameters of a label.
* `Meets` — which replies have the right label and the right parameter in bold.

## Main results

* `signatureMarkup_right_iff` — the markup is right in exactly these replies.
-/

namespace Medit.Signature

open Leftmost

/-! ## The markup -/

/-- `array_object` -/
def arrayObject (array : List Json) (index : ℕ) : Option Json.Object :=
  match array[index]? with
  | some (.object members) => some members
  | _ => none

/-- `documentation_of` -/
def documentationOf (object : Json.Object) : Option (List Char) :=
  match Json.getNode object "documentation" with
  | some (.string s) => some s
  | some (.object members) => Json.getString members "value"
  | _ => none

/-- The UTF-16 units of a character. -/
def units (c : Char) : ℤ := if c.toNat > 0xFFFF then 2 else 1

/-- `utf16_skip`, with the number of characters that are skipped. -/
def utf16Skip : List Char → ℤ → Option ℕ
  | [], n => if n = 0 then some 0 else none
  | c :: cs, n =>
    if n < 0 then none
    else if n = 0 then some 0
    else (utf16Skip cs (n - units c)).map (· + 1)

/-- `array_int` -/
def arrayInt (array : List Json) (index : ℕ) : Option ℤ :=
  match array[index]? with
  | some (.int n) => some n
  | some (.double x) => some (Json.double x).toInt
  | _ => none

/-- `parameter_range` -/
def parameterRange (label : List Char) (parameter : Json.Object) : Option (ℕ × ℕ) :=
  match Json.getNode parameter "label" with
  | some (.string text) =>
    if text = [] then none
    else (strstr text label).map fun found => (found, found + text.length)
  | some (.array pair) =>
    if pair.length ≠ 2 then none
    else do
      let start ← arrayInt pair 0
      let stop ← arrayInt pair 1
      let first ← utf16Skip label start
      let last ← utf16Skip label stop
      if last < first then none else some (first, last)
  | _ => none

/-- A `gint64` as a `guint`. -/
def castUInt (n : ℤ) : ℕ := (n % 2 ^ 32).toNat

/-- `active_signature`, when there are `n` signatures. -/
def activeSignature (object : Json.Object) (n : ℕ) : ℕ :=
  let active := Json.getInt object "activeSignature" 0
  if active < 0 ∨ castUInt active ≥ n then 0 else castUInt active

/-- `active_parameter` -/
def activeParameter (object signature : Json.Object) : ℤ :=
  Json.getInt signature "activeParameter" (Json.getInt object "activeParameter" 0)

/-- `parameter` in `lsp_signature_markup` -/
def shownParameter (signature : Json.Object) (active : ℤ) : Option Json.Object :=
  (Json.getArray signature "parameters").bind fun parameters =>
    if 0 ≤ active ∧ castUInt active < parameters.length then
      arrayObject parameters (castUInt active)
    else none

/-- The label with a range of it in bold. -/
def boldMarkup (label : List Char) : Option (ℕ × ℕ) → List Char
  | some (start, stop) =>
    markupEscapeText (label.take start) ++ "<b>".toList ++
      markupEscapeText ((label.take stop).drop start) ++ "</b>".toList ++
      markupEscapeText (label.drop stop)
  | none => markupEscapeText label

/-- What comes before the documentation. -/
def docStart : List Char := '\n' :: '<' :: 's' :: "pan foreground=\"#888888\">".toList

/-- The documentation below the label. -/
def docMarkup (doc : List Char) : List Char :=
  if doc = [] then [] else docStart ++ markupEscapeText doc ++ "</span>".toList

/-- `doc` in `lsp_signature_markup` -/
def shownDoc (signature : Json.Object) (parameter : Option Json.Object) : List Char :=
  let doc := (parameter.bind documentationOf).getD []
  if doc = [] then (documentationOf signature).getD [] else doc

/-- The signature that `lsp_signature_markup` shows. -/
def shownSignature (object : Json.Object) : Option Json.Object :=
  let signatures := (Json.getArray object "signatures").getD []
  arrayObject signatures (activeSignature object signatures.length)

/-- The label of a signature, if it has a text. -/
def labelOf (signature : Json.Object) : Option (List Char) :=
  (Json.getString signature "label").filter (· ≠ [])

/-- `lsp_signature_markup` -/
def signatureMarkup : Option Json → Option (List Char)
  | some (.object object) => do
    let signature ← shownSignature object
    let label ← labelOf signature
    let parameter := shownParameter signature (activeParameter object signature)
    some (boldMarkup label (parameter.bind (parameterRange label)) ++
      docMarkup (shownDoc signature parameter))
  | _ => none

/-! ## What a markup shows -/

/-- The number that hexadecimal digits are. -/
def hexValue (digits : List Char) : ℕ :=
  digits.foldl (fun n c => 16 * n + (if c.isDigit then c.toNat - 48 else c.toNat - 87)) 0

/-- The character of an entity. -/
def entityChar (name : List Char) : Char :=
  if name = "amp".toList then '&'
  else if name = "lt".toList then '<'
  else if name = "gt".toList then '>'
  else if name = "quot".toList then '"'
  else if name = "#39".toList then '\''
  else Char.ofNat (hexValue (name.drop 2))

/-- The characters that a markup shows, with whether they are bold. The second list is what has been
read of an entity or of a tag. -/
def read : Bool → List Char → List Char → List (Char × Bool)
  | _, _, [] => []
  | bold, [], c :: cs =>
    if c = '&' ∨ c = '<' then read bold [c] cs else (c, bold) :: read bold [] cs
  | bold, d :: name, c :: cs =>
    if d = '<' then
      if c = '>' then read (name = ['b']) [] cs else read bold (d :: (name ++ [c])) cs
    else if c = ';' then (entityChar name, bold) :: read bold [] cs
    else read bold (d :: (name ++ [c])) cs

/-- What comes before the documentation in a markup. -/
def firstPart : List Char → List Char
  | [] => []
  | c :: cs => if docStart <+: c :: cs then [] else c :: firstPart cs

/-! ## What it should show -/

/-- The active signature of a reply: the one with the number, or the first one if there is none with
this number. -/
def activeLabel (object : Json.Object) : Option (List Char) :=
  let signatures := (Json.getArray object "signatures").getD []
  let active := Json.getInt object "activeSignature" 0
  let index := if 0 ≤ active ∧ active < signatures.length then active.toNat else 0
  (arrayObject signatures index).bind (Json.getString · "label")

/-- What comes before a parameter in a label. -/
def before (name : List Char) (ps : List (List Char)) (k : ℕ) : List Char :=
  name ++ '(' :: (ps.take k).flatMap (· ++ ", ".toList)

/-- The label of a function with its parameters. -/
def callLabel (name : List Char) (ps : List (List Char)) : List Char :=
  name ++ '(' :: (", ".toList.intercalate ps ++ [')'])

/-- The UTF-16 units of a text. -/
def textUnits (t : List Char) : ℤ := (t.map units).sum

/-- A JSON number. -/
def IsNumber (n : ℤ) (json : Option Json) : Prop :=
  json = some (.int n) ∨ json = some (.double (some n))

/-- A parameter is named by its text. -/
def NamedByText (p : List Char) (parameter : Json.Object) : Prop :=
  Json.getNode parameter "label" = some (.string p)

/-- A parameter behind `front` is named by the offsets of its ends. -/
def NamedByOffsets (front p : List Char) (parameter : Json.Object) : Prop :=
  ∃ pair, Json.getNode parameter "label" = some (.array pair) ∧ pair.length = 2 ∧
    IsNumber (textUnits front) pair[0]? ∧ IsNumber (textUnits (front ++ p)) pair[1]?

/-- The parameters that a signature lists. -/
def parametersOf (signature : Json.Object) : List Json :=
  (Json.getArray signature "parameters").getD []

/-- The signature lists the parameters of a label in order. An array has less than 2³² elements. -/
structure Listed (signature : Json.Object) (name : List Char) (ps : List (List Char)) : Prop where
  label : Json.getString signature "label" = some (callLabel name ps)
  length : (parametersOf signature).length = ps.length
  small : ps.length < 2 ^ 32
  named : ∀ k p, ps[k]? = some p → ∃ parameter,
    arrayObject (parametersOf signature) k = some parameter ∧
      (NamedByText p parameter ∨ NamedByOffsets (before name ps k) p parameter)

/-- A place of a label is in the parameter with a number, if there is one. -/
def InParameter (name : List Char) (ps : List (List Char)) (active : ℤ) (i : ℕ) : Prop :=
  0 ≤ active ∧ ∃ p, ps[active.toNat]? = some p ∧ (before name ps active.toNat).length ≤ i ∧
    i < (before name ps active.toNat).length + p.length

/-- The first part of the markup is the label of the active signature, and in a signature that lists
its parameters the active one is bold, and nothing else. -/
structure Right (object : Json.Object) : Prop where
  label : ∀ markup, signatureMarkup (some (.object object)) = some markup →
    some ((read false [] (firstPart markup)).map Prod.fst) = activeLabel object
  bold : ∀ markup, signatureMarkup (some (.object object)) = some markup →
    ∀ signature, shownSignature object = some signature →
      ∀ name ps, Listed signature name ps →
        ∀ i c b, (read false [] (firstPart markup))[i]? = some (c, b) →
          (b = true ↔ InParameter name ps (activeParameter object signature) i)

/-- The signature with the narrowed number has the label of the active one, an active parameter that
is named by its text occurs nowhere before its own place, and no parameter with a text has the
number of the active one only after narrowing. -/
structure Meets (object : Json.Object) : Prop where
  signature : ∀ signature, shownSignature object = some signature →
    ∀ label, labelOf signature = some label → activeLabel object = some label
  first : ∀ signature, shownSignature object = some signature →
    ∀ name ps, Listed signature name ps →
      ∀ k p parameter, activeParameter object signature = (k : ℕ) → ps[k]? = some p → p ≠ [] →
        arrayObject (parametersOf signature) k = some parameter → NamedByText p parameter →
          ∀ j < (before name ps k).length, ¬ p <+: (callLabel name ps).drop j
  narrow : ∀ signature, shownSignature object = some signature →
    ∀ name ps, Listed signature name ps → (ps.length : ℤ) ≤ activeParameter object signature →
      ∀ p, ps[castUInt (activeParameter object signature)]? = some p → p = []

/-! ## Reading a label back -/

section Read

variable {t x rest label doc : List Char} {bold b : Bool} {c : Char} {i start stop : ℕ}

/-- The characters that are written as numbers. -/
def numbered : List ℕ :=
  List.range' 1 8 ++ List.range' 0xb 2 ++ List.range' 0xe 18 ++ List.range' 0x7f 6 ++
    List.range' 0x86 26

theorem numbered_entity : numbered.all fun n =>
    (Nat.toDigits 16 n).all (fun d => d ≠ ';' ∧ d ≠ '<') &&
      entityChar ('#' :: 'x' :: Nat.toDigits 16 n) == Char.ofNat n := by
  decide

theorem read_entity {name l : List Char} (h : ';' ∉ l) :
    read bold ('&' :: name) (l ++ ';' :: rest) =
      (entityChar (name ++ l), bold) :: read bold [] rest := by
  induction l generalizing name with
  | nil => simp [read]
  | cons d l ih =>
    have hd : d ≠ ';' := fun hd => h (by simp [hd])
    rw [List.cons_append, read, if_neg (by decide), if_neg hd, ih fun hl => h (by simp [hl])]
    simp

theorem read_escapeChar (bold : Bool) (c : Char) (rest : List Char) :
    read bold [] (escapeChar c ++ rest) = (c, bold) :: read bold [] rest := by
  unfold escapeChar
  split
  · simp [read, entityChar]
  · simp [read, entityChar]
  · simp [read, entityChar]
  · simp [read, entityChar]
  · simp [read, entityChar]
  · next hamp hlt _ _ _ =>
    dsimp only
    split
    · next h =>
      have hmem : c.toNat ∈ numbered := by
        simp only [numbered, List.mem_append]
        tauto
      have hall := List.all_eq_true.1 numbered_entity _ hmem
      simp only [Bool.and_eq_true, List.all_eq_true, decide_eq_true_eq, beq_iff_eq] at hall
      obtain ⟨hdigits, hchar⟩ := hall
      have hsemi : ';' ∉ '#' :: 'x' :: Nat.toDigits 16 c.toNat := by
        simpa using fun hin => (hdigits _ hin).1 rfl
      have hread : read bold ['&'] ('#' :: 'x' :: Nat.toDigits 16 c.toNat ++ ';' :: rest) =
          (entityChar ('#' :: 'x' :: Nat.toDigits 16 c.toNat), bold) :: read bold [] rest :=
        read_entity hsemi
      rw [hchar, Char.ofNat_toNat] at hread
      rw [← hread]
      simp [read]
    · simp [read, show c ≠ '&' from hamp, show c ≠ '<' from hlt]

theorem read_markupEscapeText (bold : Bool) (t rest : List Char) :
    read bold [] (markupEscapeText t ++ rest) = t.map (·, bold) ++ read bold [] rest := by
  induction t with
  | nil => rfl
  | cons c t ih =>
    rw [markupEscapeText, List.flatMap_cons, List.append_assoc, read_escapeChar, ← markupEscapeText,
      ih, List.map_cons, List.cons_append]

theorem notMem_escapeChar (c : Char) : '<' ∉ escapeChar c := by
  unfold escapeChar
  split
  · decide
  · decide
  · decide
  · decide
  · decide
  · next hlt _ _ _ =>
    dsimp only
    split
    · next h =>
      have hmem : c.toNat ∈ numbered := by
        simp only [numbered, List.mem_append]
        tauto
      have hall := List.all_eq_true.1 numbered_entity _ hmem
      simp only [Bool.and_eq_true, List.all_eq_true, decide_eq_true_eq] at hall
      simpa using fun hin => (hall.1 _ hin).2 rfl
    · simpa using Ne.symm hlt

theorem notMem_markupEscapeText (t : List Char) : '<' ∉ markupEscapeText t := by
  simpa [markupEscapeText] using fun c _ => notMem_escapeChar c

/-- A text begins with a tag other than that of the documentation, or with no tag. -/
def Continues (rest : List Char) : Prop := ∀ u, rest ≠ '<' :: 's' :: u

theorem not_prefix_of_continues (h : Continues rest) (c : Char) : ¬ docStart <+: c :: rest := by
  rintro ⟨u, hu⟩
  exact h _ (List.cons.inj hu).2.symm

theorem firstPart_append (hx : '<' ∉ x) (hrest : Continues rest) :
    firstPart (x ++ rest) = x ++ firstPart rest := by
  induction x with
  | nil => rfl
  | cons c x ih =>
    have hx' : '<' ∉ x := fun h => hx (by simp [h])
    have hcontinues : Continues (x ++ rest) := by
      cases x with
      | nil => exact hrest
      | cons d x => exact fun u hu => hx' (by simp [(List.cons.inj hu).1])
    rw [List.cons_append, firstPart, if_neg (not_prefix_of_continues hcontinues c), ih hx',
      List.cons_append]

theorem docMarkup_eq (doc : List Char) :
    docMarkup doc = [] ∨ ∃ u, docMarkup doc = docStart ++ u := by
  unfold docMarkup
  split
  · exact .inl rfl
  · exact .inr ⟨_, List.append_assoc ..⟩

theorem firstPart_docMarkup (doc : List Char) : firstPart (docMarkup doc) = [] := by
  rcases docMarkup_eq doc with h | ⟨u, h⟩
  · rw [h, firstPart]
  · rw [h]
    exact if_pos (List.prefix_append docStart u)

theorem continues_docMarkup (doc : List Char) : Continues (docMarkup doc) := by
  intro u hu
  rcases docMarkup_eq doc with h | ⟨v, h⟩
  · cases h.symm.trans hu
  · have hhead := (List.cons.inj (h.symm.trans hu)).1
    revert hhead
    decide

theorem firstPart_cons (hc : c ≠ '\n') (t : List Char) : firstPart (c :: t) = c :: firstPart t := by
  refine if_neg ?_
  rintro ⟨u, hu⟩
  exact hc (List.cons.inj hu).1.symm

theorem firstPart_boldMarkup (label doc : List Char) (range : Option (ℕ × ℕ)) :
    firstPart (boldMarkup label range ++ docMarkup doc) = boldMarkup label range := by
  have hend (t : List Char) :
      firstPart (markupEscapeText t ++ docMarkup doc) = markupEscapeText t := by
    rw [firstPart_append (notMem_markupEscapeText t) (continues_docMarkup doc),
      firstPart_docMarkup, List.append_nil]
  cases range with
  | none => exact hend label
  | some range =>
    have hopen : "<b>".toList = ['<', 'b', '>'] := rfl
    have hclose : "</b>".toList = ['<', '/', 'b', '>'] := rfl
    simp only [boldMarkup, hopen, hclose, List.append_assoc, List.cons_append, List.nil_append]
    rw [firstPart_append (notMem_markupEscapeText _) (by simp [Continues]),
      firstPart_cons (by decide), firstPart_cons (by decide), firstPart_cons (by decide),
      firstPart_append (notMem_markupEscapeText _) (by simp [Continues]),
      firstPart_cons (by decide), firstPart_cons (by decide), firstPart_cons (by decide),
      firstPart_cons (by decide), hend]

/-- The characters that `boldMarkup` shows. -/
def shown (label : List Char) : Option (ℕ × ℕ) → List (Char × Bool)
  | some (start, stop) => (label.take start).map (·, false) ++
      ((label.take stop).drop start).map (·, true) ++ (label.drop stop).map (·, false)
  | none => label.map (·, false)

theorem read_boldMarkup (label : List Char) (range : Option (ℕ × ℕ)) :
    read false [] (boldMarkup label range) = shown label range := by
  have hend (t : List Char) : read false [] (markupEscapeText t) = t.map (·, false) := by
    have := read_markupEscapeText false t []
    rwa [List.append_nil, read, List.append_nil] at this
  cases range with
  | none => exact hend label
  | some range =>
    simp only [boldMarkup, List.append_assoc, read_markupEscapeText, shown]
    simp [read, read_markupEscapeText, hend]

/-- A place is in a range, if there is one. -/
def InRange (range : Option (ℕ × ℕ)) (i : ℕ) : Prop :=
  ∃ start stop, range = some (start, stop) ∧ start ≤ i ∧ i < stop

theorem map_fst_shown {range : Option (ℕ × ℕ)}
    (h : ∀ start stop, range = some (start, stop) → start ≤ stop) :
    (shown label range).map Prod.fst = label := by
  cases range with
  | none => simp [shown, Function.comp_def]
  | some range =>
    have htake : (label.take range.2).take range.1 = label.take range.1 := by
      rw [List.take_take, Nat.min_eq_left (h _ _ rfl)]
    simp only [shown, List.map_append, List.map_map, Function.comp_def, List.map_id']
    rw [← htake, List.take_append_drop, List.take_append_drop]

theorem bold_shown {range : Option (ℕ × ℕ)}
    (h : ∀ start stop, range = some (start, stop) → start ≤ stop ∧ stop ≤ label.length)
    (hi : (shown label range)[i]? = some (c, b)) : b = true ↔ InRange range i := by
  have hflag {t : List Char} {flag : Bool} {j : ℕ}
      (hj : (t.map (·, flag))[j]? = some (c, b)) : b = flag := by
    obtain ⟨d, -, heq⟩ := Option.map_eq_some_iff.1 (List.getElem?_map.symm.trans hj)
    exact (Prod.mk.inj heq).2.symm
  cases range with
  | none => simp [hflag hi, InRange]
  | some range =>
    obtain ⟨start, stop⟩ := range
    obtain ⟨hle, hlen⟩ := h _ _ rfl
    have hin : InRange (some (start, stop)) i ↔ start ≤ i ∧ i < stop := by
      simp [InRange]
    rw [hin]
    rw [shown, List.append_assoc, List.getElem?_append, List.getElem?_append] at hi
    simp only [List.length_map, List.length_take, List.length_drop] at hi
    split_ifs at hi with hstart hstop
    · simp only [hflag hi, Bool.false_eq_true, false_iff]
      omega
    · simp only [hflag hi, true_iff]
      omega
    · simp only [hflag hi, Bool.false_eq_true, false_iff]
      omega

end Read

/-! ## The range of a parameter -/

section Range

variable {object signature parameter : Json.Object} {label name p front t : List Char}
  {ps : List (List Char)} {active n : ℤ} {i k start stop : ℕ}

theorem units_pos (c : Char) : 0 < units c := by
  unfold units
  split <;> omega

theorem textUnits_nonneg (t : List Char) : 0 ≤ textUnits t := by
  induction t with
  | nil => exact le_rfl
  | cons c t ih =>
    have hpos := units_pos c
    have hcons : textUnits (c :: t) = units c + textUnits t := List.sum_cons
    omega

/-- The UTF-16 units of a text lead behind it. -/
theorem utf16Skip_textUnits (t rest : List Char) :
    utf16Skip (t ++ rest) (textUnits t) = some t.length := by
  induction t with
  | nil => cases rest <;> simp [utf16Skip, textUnits]
  | cons c t ih =>
    have hpos := units_pos c
    have hnonneg := textUnits_nonneg t
    have hcons : textUnits (c :: t) = units c + textUnits t := List.sum_cons
    have hrest : units c + textUnits t - units c = textUnits t := by omega
    rw [List.cons_append, utf16Skip, if_neg (by omega), if_neg (by omega), hcons, hrest, ih]
    rfl

theorem utf16Skip_le (h : utf16Skip t n = some k) : k ≤ t.length := by
  induction t generalizing n k with
  | nil =>
    rw [utf16Skip] at h
    split at h <;> simp_all
  | cons c t ih =>
    rw [utf16Skip] at h
    split_ifs at h with hneg hzero
    · simp only [Option.some.injEq] at h
      omega
    · obtain ⟨l, hl, rfl⟩ := Option.map_eq_some_iff.1 h
      have := ih hl
      simp only [List.length_cons]
      omega

/-- The range is in the label. -/
theorem parameterRange_le (h : parameterRange label parameter = some (start, stop)) :
    start ≤ stop ∧ stop ≤ label.length := by
  unfold parameterRange at h
  split at h
  · next text _ =>
    split at h
    · cases h
    · obtain ⟨found, hfound, heq⟩ := Option.map_eq_some_iff.1 h
      simp only [Prod.mk.injEq] at heq
      obtain ⟨hpre, hle, -⟩ := strstr_eq_some.1 hfound
      have hlength := hpre.length_le
      rw [List.length_drop] at hlength
      omega
  · next pair _ =>
    split at h
    · cases h
    · simp only [Option.bind_eq_bind, Option.bind_eq_some_iff] at h
      obtain ⟨_, -, _, -, first, -, last, hlast, h⟩ := h
      split at h
      · cases h
      · have := utf16Skip_le hlast
        simp only [Option.some.injEq, Prod.mk.injEq] at h
        omega
  · cases h

theorem arrayInt_of_isNumber {array : List Json} (h : IsNumber n array[k]?) :
    arrayInt array k = some n := by
  unfold arrayInt
  rcases h with h | h
  · rw [h]
  · rw [h]
    simp [Json.toInt]

theorem intercalate_append (front : List (List Char)) (p : List Char) (ps : List (List Char)) :
    ∃ t, ", ".toList.intercalate (front ++ p :: ps) =
      front.flatMap (· ++ ", ".toList) ++ p ++ t := by
  induction front with
  | nil =>
    cases ps with
    | nil => exact ⟨[], by simp [List.intercalate]⟩
    | cons q ps =>
      exact ⟨", ".toList ++ ", ".toList.intercalate (q :: ps), by simp [List.intercalate]⟩
  | cons f front ih =>
    obtain ⟨t, ht⟩ := ih
    refine ⟨t, ?_⟩
    obtain ⟨q, qs, hq⟩ := List.exists_cons_of_ne_nil (show front ++ p :: ps ≠ [] by simp)
    rw [hq] at ht
    rw [List.cons_append, hq, List.flatMap_cons]
    simp only [List.intercalate, List.intersperse_cons_cons, List.flatten_cons] at ht ⊢
    rw [ht]
    simp

/-- A label is made of what is before a parameter, of the parameter and of the rest. -/
theorem callLabel_eq (name : List Char) (h : ps[k]? = some p) :
    ∃ rest, callLabel name ps = before name ps k ++ p ++ rest := by
  have hps := List.getElem?_eq_some_iff.1 h
  obtain ⟨hk, rfl⟩ := hps
  obtain ⟨t, ht⟩ := intercalate_append (ps.take k) ps[k] (ps.drop (k + 1))
  rw [← List.drop_eq_getElem_cons hk, List.take_append_drop] at ht
  refine ⟨t ++ [')'], ?_⟩
  rw [callLabel, before, ht]
  simp

/-- What `parameter_range` gives for a parameter that is listed. -/
theorem parameterRange_of_named (hp : ps[k]? = some p)
    (h : NamedByText p parameter ∨ NamedByOffsets (before name ps k) p parameter) :
    (p = [] → ∀ i, ¬ InRange (parameterRange (callLabel name ps) parameter) i) ∧
      (p ≠ [] → ∃ start, parameterRange (callLabel name ps) parameter =
          some (start, start + p.length) ∧ start ≤ (before name ps k).length ∧
        (start = (before name ps k).length ↔ (NamedByText p parameter →
          ∀ j < (before name ps k).length, ¬ p <+: (callLabel name ps).drop j))) := by
  obtain ⟨rest, hlabel⟩ := callLabel_eq name hp
  rcases h with h | ⟨pair, hnode, hlength, hstart, hstop⟩
  · have hrange : parameterRange (callLabel name ps) parameter = if p = [] then none
        else (strstr p (callLabel name ps)).map fun found => (found, found + p.length) := by
      unfold parameterRange
      rw [h]
    rw [hrange]
    refine ⟨fun hnil i => ?_, fun hne => ?_⟩
    · rw [if_pos hnil]
      rintro ⟨_, _, hcon, -⟩
      cases hcon
    · rw [if_neg hne]
      have hown : p <+: (callLabel name ps).drop (before name ps k).length := by
        rw [hlabel, List.append_assoc, List.drop_left]
        exact List.prefix_append ..
      have hle : (before name ps k).length ≤ (callLabel name ps).length := by
        rw [hlabel]
        simp
      cases hfound : strstr p (callLabel name ps) with
      | none => exact absurd hown (strstr_eq_none.1 hfound _ hle)
      | some found =>
        obtain ⟨hpre, -, hfirst⟩ := strstr_eq_some.1 hfound
        have hfoundle : found ≤ (before name ps k).length := by
          by_contra hlt
          exact hfirst _ (by omega) hown
        refine ⟨found, rfl, hfoundle, fun heq _ j hj => hfirst j (by omega), fun hall => ?_⟩
        by_contra hne
        exact hall h found (by omega) hpre
  · have hrange : parameterRange (callLabel name ps) parameter =
        some ((before name ps k).length, (before name ps k).length + p.length) := by
      have hskip := utf16Skip_textUnits (before name ps k) (p ++ rest)
      have hskip' := utf16Skip_textUnits (before name ps k ++ p) rest
      rw [← List.append_assoc, ← hlabel] at hskip
      rw [← hlabel] at hskip'
      unfold parameterRange
      rw [hnode]
      simp [hlength, arrayInt_of_isNumber hstart, arrayInt_of_isNumber hstop, hskip, hskip']
    rw [hrange]
    refine ⟨fun hnil i => ?_, fun _ => ⟨_, rfl, le_rfl, fun _ htext => ?_, fun _ => rfl⟩⟩
    · rintro ⟨start, stop, heq, hi⟩
      simp only [Option.some.injEq, Prod.mk.injEq, hnil, List.length_nil] at heq
      omega
    · rw [NamedByText, hnode] at htext
      cases htext

end Range

/-! ## The markup of a reply -/

section Reply

variable {object signature parameter : Json.Object} {label name p markup : List Char}
  {ps : List (List Char)}

/-- The range that `lsp_signature_markup` shows in bold. -/
def shownRange (object signature : Json.Object) (label : List Char) : Option (ℕ × ℕ) :=
  (shownParameter signature (activeParameter object signature)).bind (parameterRange label)

theorem signatureMarkup_eq_some (h : signatureMarkup (some (.object object)) = some markup) :
    ∃ signature label, shownSignature object = some signature ∧ labelOf signature = some label ∧
      read false [] (firstPart markup) = shown label (shownRange object signature label) := by
  simp only [signatureMarkup, Option.bind_eq_bind, Option.bind_eq_some_iff] at h
  obtain ⟨signature, hsignature, label, hlabel, h⟩ := h
  refine ⟨signature, label, hsignature, hlabel, ?_⟩
  rw [← Option.some.inj h, firstPart_boldMarkup, read_boldMarkup]
  rfl

theorem exists_signatureMarkup (hsignature : shownSignature object = some signature)
    (hlabel : labelOf signature = some label) :
    ∃ markup, signatureMarkup (some (.object object)) = some markup := by
  simp [signatureMarkup, hsignature, hlabel]

theorem shownRange_le {start stop : ℕ}
    (h : shownRange object signature label = some (start, stop)) :
    start ≤ stop ∧ stop ≤ label.length := by
  obtain ⟨parameter, -, hrange⟩ := Option.bind_eq_some_iff.1 h
  exact parameterRange_le hrange

theorem map_fst_read (h : signatureMarkup (some (.object object)) = some markup)
    (hsignature : shownSignature object = some signature) :
    some ((read false [] (firstPart markup)).map Prod.fst) = labelOf signature := by
  obtain ⟨signature', label, hsignature', hlabel, hread⟩ := signatureMarkup_eq_some h
  obtain rfl := Option.some.inj (hsignature.symm.trans hsignature')
  rw [hread, map_fst_shown fun _ _ hrange => (shownRange_le hrange).1, hlabel]

theorem callLabel_ne_nil (name : List Char) (ps : List (List Char)) : callLabel name ps ≠ [] := by
  simp [callLabel]

theorem Listed.labelOf (h : Listed signature name ps) :
    labelOf signature = some (callLabel name ps) := by
  rw [Signature.labelOf, h.label]
  simp [callLabel_ne_nil]

/-- The markup of a signature that lists its parameters. -/
theorem bold_read_iff (hsignature : shownSignature object = some signature)
    (hlisted : Listed signature name ps) (Q : ℕ → Prop) :
    (∀ markup, signatureMarkup (some (.object object)) = some markup →
        ∀ i c b, (read false [] (firstPart markup))[i]? = some (c, b) → (b = true ↔ Q i)) ↔
      ∀ i < (callLabel name ps).length,
        (InRange (shownRange object signature (callLabel name ps)) i ↔ Q i) := by
  constructor
  · intro h i hi
    obtain ⟨markup, hmarkup⟩ := exists_signatureMarkup hsignature hlisted.labelOf
    obtain ⟨signature', label, hsignature', hlabel, hread⟩ := signatureMarkup_eq_some hmarkup
    obtain rfl := Option.some.inj (hsignature.symm.trans hsignature')
    obtain rfl := Option.some.inj (hlisted.labelOf.symm.trans hlabel)
    have hlength : i < (read false [] (firstPart markup)).length := by
      rw [hread, ← List.length_map Prod.fst,
        map_fst_shown fun _ _ hrange => (shownRange_le hrange).1]
      exact hi
    obtain ⟨⟨c, b⟩, hget⟩ : ∃ cb, (read false [] (firstPart markup))[i]? = some cb :=
      ⟨_, List.getElem?_eq_getElem hlength⟩
    rw [← h markup hmarkup i c b hget]
    rw [hread] at hget
    exact (bold_shown (fun _ _ => shownRange_le) hget).symm
  · intro h markup hmarkup i c b hget
    obtain ⟨signature', label, hsignature', hlabel, hread⟩ := signatureMarkup_eq_some hmarkup
    obtain rfl := Option.some.inj (hsignature.symm.trans hsignature')
    obtain rfl := Option.some.inj (hlisted.labelOf.symm.trans hlabel)
    rw [hread] at hget
    have hi := (List.getElem?_eq_some_iff.1 hget).1
    rw [← List.length_map Prod.fst, map_fst_shown fun _ _ hrange => (shownRange_le hrange).1] at hi
    rw [bold_shown (fun _ _ => shownRange_le) hget]
    exact h i hi

theorem shownParameter_eq (signature : Json.Object) (active : ℤ) :
    shownParameter signature active =
      if 0 ≤ active then arrayObject (parametersOf signature) (castUInt active) else none := by
  unfold shownParameter parametersOf
  cases Json.getArray signature "parameters" with
  | none => simp [arrayObject]
  | some parameters =>
    simp only [Option.bind_some, Option.getD_some]
    by_cases hlt : castUInt active < parameters.length
    · simp [hlt]
    · simp [hlt, arrayObject]

theorem castUInt_natCast {k : ℕ} (h : k < 2 ^ 32) : castUInt k = k := by
  unfold castUInt
  omega

/-- Where two ranges of one length are the same. -/
theorem range_iff {start own length size : ℕ} (hlength : 0 < length) (hsize : own + length ≤ size)
    (hle : start ≤ own) :
    (∀ i < size, start ≤ i ∧ i < start + length ↔ own ≤ i ∧ i < own + length) ↔ start = own := by
  constructor
  · intro h
    have := (h start (by omega)).1 (by omega)
    omega
  · rintro rfl
    simp

theorem inRange_some {start stop i : ℕ} :
    InRange (some (start, stop)) i ↔ start ≤ i ∧ i < stop := by
  simp [InRange]

theorem not_inRange_none (i : ℕ) : ¬ InRange none i := by
  simp [InRange]

theorem inParameter_natCast {k : ℕ} (hp : ps[k]? = some p) (i : ℕ) :
    InParameter name ps k i ↔
      (before name ps k).length ≤ i ∧ i < (before name ps k).length + p.length := by
  simp [InParameter, hp]

theorem before_add_le {k : ℕ} (hp : ps[k]? = some p) :
    (before name ps k).length + p.length ≤ (callLabel name ps).length := by
  obtain ⟨rest, hlabel⟩ := callLabel_eq name hp
  rw [hlabel]
  simp

theorem shownRange_right_iff (h : Listed signature name ps) :
    (∀ i < (callLabel name ps).length,
        (InRange (shownRange object signature (callLabel name ps)) i ↔
          InParameter name ps (activeParameter object signature) i)) ↔
      (∀ k p parameter, activeParameter object signature = (k : ℕ) → ps[k]? = some p → p ≠ [] →
        arrayObject (parametersOf signature) k = some parameter → NamedByText p parameter →
          ∀ j < (before name ps k).length, ¬ p <+: (callLabel name ps).drop j) ∧
      ((ps.length : ℤ) ≤ activeParameter object signature →
        ∀ p, ps[castUInt (activeParameter object signature)]? = some p → p = []) := by
  unfold shownRange
  rw [shownParameter_eq]
  generalize activeParameter object signature = active
  rcases lt_or_ge active 0 with hneg | hpos
  · rw [if_neg (by omega)]
    refine iff_of_true (fun i _ => iff_of_false (not_inRange_none i) fun hin => ?_)
      ⟨fun k _ _ hk => ?_, fun hle => ?_⟩
    · have := hin.1
      omega
    · omega
    · omega
  rw [if_pos hpos]
  obtain ⟨k, rfl⟩ := Int.eq_ofNat_of_zero_le hpos
  rcases Nat.lt_or_ge k ps.length with hlt | hge
  · have hp := List.getElem?_eq_getElem hlt
    obtain ⟨parameter, hparameter, hnamed⟩ := h.named k _ hp
    rw [castUInt_natCast (hlt.trans h.small), hparameter, Option.bind_some]
    obtain ⟨hnil, hne⟩ := parameterRange_of_named hp hnamed
    have hother : ∀ {k' : ℕ} {q : List Char}, (k : ℤ) = k' → ps[k']? = some q →
        k' = k ∧ q = ps[k] := by
      intro k' q hk hq
      obtain rfl : k = k' := by omega
      exact ⟨rfl, Option.some.inj (hq.symm.trans hp)⟩
    simp only [inParameter_natCast hp]
    by_cases hempty : ps[k] = []
    · refine iff_of_true (fun i _ => iff_of_false (hnil hempty i) ?_)
        ⟨fun k' q _ hk hq hqne => ?_, fun hle => ?_⟩
      · simp only [hempty, List.length_nil]
        omega
      · exact absurd ((hother hk hq).2.trans hempty) hqne
      · omega
    · obtain ⟨start, hrange, hle, hfirst⟩ := hne hempty
      have hpos := List.length_pos_iff.2 hempty
      simp only [hrange, inRange_some]
      rw [range_iff hpos (before_add_le hp) hle, hfirst]
      constructor
      · intro hall
        refine ⟨fun k' q parameter' hk hq _ hparameter' htext => ?_, fun hle => ?_⟩
        · obtain ⟨rfl, rfl⟩ := hother hk hq
          obtain rfl := Option.some.inj (hparameter.symm.trans hparameter')
          exact hall htext
        · omega
      · rintro ⟨hall, -⟩ htext
        exact hall k _ parameter rfl hp hempty hparameter htext
  · have hnone : ps[k]? = none := List.getElem?_eq_none hge
    have hnot (i : ℕ) : ¬ InParameter name ps k i := by
      rintro ⟨-, q, hq, -⟩
      cases hnone.symm.trans hq
    have hvacuous : ∀ k' q parameter', (k : ℤ) = (k' : ℕ) → ps[k']? = some q → q ≠ [] →
        arrayObject (parametersOf signature) k' = some parameter' → NamedByText q parameter' →
          ∀ j < (before name ps k').length, ¬ q <+: (callLabel name ps).drop j := by
      intro k' q _ hk hq
      obtain rfl : k = k' := by omega
      cases hnone.symm.trans hq
    simp only [hnot, iff_false]
    rw [and_iff_right hvacuous, forall_prop_of_true (by omega)]
    cases hq : ps[castUInt k]? with
    | none =>
      have hlength := List.getElem?_eq_none_iff.1 hq
      have hout : (parametersOf signature)[castUInt k]? = none :=
        List.getElem?_eq_none (h.length ▸ hlength)
      simp [arrayObject, hout, not_inRange_none]
    | some q =>
      obtain ⟨parameter, hparameter, hnamed⟩ := h.named _ _ hq
      obtain ⟨hnil, hne⟩ := parameterRange_of_named hq hnamed
      simp only [hparameter, Option.bind_some, Option.some.injEq, forall_eq']
      refine ⟨fun hall => ?_, fun hempty i _ => hnil hempty i⟩
      by_contra hqne
      obtain ⟨start, hrange, hle, -⟩ := hne hqne
      have hpos := List.length_pos_iff.2 hqne
      have hsize : (before name ps (castUInt k)).length + q.length ≤ (callLabel name ps).length :=
        before_add_le hq
      refine hall start (by omega) ?_
      rw [hrange, inRange_some]
      omega

/-- The first part of the markup is the label of the active signature and the active parameter is
bold in exactly the replies that name one signature before and after narrowing, where a parameter
that is named by its text is at its first place, and no parameter has the number of the active one
only after narrowing. -/
theorem signatureMarkup_right_iff (object : Json.Object) : Right object ↔ Meets object := by
  constructor
  · rintro ⟨hlabel, hbold⟩
    have hboth := fun signature (hsignature : shownSignature object = some signature) name ps
        (hlisted : Listed signature name ps) => shownRange_right_iff hlisted |>.1
          ((bold_read_iff hsignature hlisted _).1 fun markup hmarkup =>
            hbold markup hmarkup signature hsignature name ps hlisted)
    refine ⟨fun signature hsignature label hlabelOf => ?_,
      fun signature hsignature name ps hlisted => (hboth signature hsignature name ps hlisted).1,
      fun signature hsignature name ps hlisted => (hboth signature hsignature name ps hlisted).2⟩
    obtain ⟨markup, hmarkup⟩ := exists_signatureMarkup hsignature hlabelOf
    rw [← hlabel markup hmarkup, map_fst_read hmarkup hsignature, hlabelOf]
  · rintro ⟨hsame, hfirst, hnarrow⟩
    refine ⟨fun markup hmarkup => ?_, fun markup hmarkup signature hsignature name ps hlisted => ?_⟩
    · obtain ⟨signature, label, hsignature, hlabel, -⟩ := signatureMarkup_eq_some hmarkup
      rw [map_fst_read hmarkup hsignature, hlabel, hsame signature hsignature label hlabel]
    · exact (bold_read_iff hsignature hlisted _).2 ((shownRange_right_iff hlisted).2
        ⟨hfirst signature hsignature name ps hlisted, hnarrow signature hsignature name ps hlisted⟩)
        markup hmarkup

/-- A signature with its parameters named by their texts. -/
def maxSignature : Json.Object :=
  [("label", .string "max(a, b)".toList),
    ("parameters", .array [.object [("label", .string ['a'])], .object [("label", .string ['b'])]])]

theorem listed_maxSignature : Listed maxSignature "max".toList [['a'], ['b']] := by
  refine ⟨by rfl, by rfl, by decide, fun k p hp => ?_⟩
  match k, hp with
  | 0, hp => exact ⟨_, rfl, .inl (by obtain rfl := Option.some.inj hp; rfl)⟩
  | 1, hp => exact ⟨_, rfl, .inl (by obtain rfl := Option.some.inj hp; rfl)⟩
  | _ + 2, hp => cases hp

/-- The `a` of `max` is bold in place of the first parameter. -/
theorem name_is_bold : ¬ Right [("signatures", .array [.object maxSignature])] := by
  intro h
  have hmarkup : signatureMarkup (some (.object [("signatures", .array [.object maxSignature])])) =
      some "m<b>a</b>x(a, b)".toList := by
    decide
  have hread : (read false [] (firstPart "m<b>a</b>x(a, b)".toList))[1]? = some ('a', true) := by
    decide
  have hin := (h.bold _ hmarkup maxSignature rfl _ _ listed_maxSignature 1 'a' true hread).1 rfl
  obtain ⟨-, p, -, hle, -⟩ := hin
  revert hle
  decide

end Reply

end Medit.Signature
