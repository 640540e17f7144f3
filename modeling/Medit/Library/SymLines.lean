import Medit.Library.CharLines

/-!
# The lines of a buffer

A buffer as the texts of its lines and the ends between them, and what becomes of them when a part
of whole lines is replaced.

## Main definitions

* `contents`, `ends` — the texts of the lines, and the ends of all but the last.
* `Whole`, `EolFirst` — a part of a buffer that stops where a line starts, and one that starts where
  a line ends.
* `LineAt` — a line with what is in front of it and what is behind it.

## Main results

* `text_congr`, `contents_inj` — the texts of the lines and the ends between them make the text, and
  the text gives the texts of the lines between known ends.
* `contents_append_whole`, `contents_append_eolFirst` — the lines of a buffer around a part of it.
* `contents_rejoin` — lines with only `\n` between them, as one text and back.
-/

namespace Paragraphs

open CharLines

/-- The texts of the lines, without their ends. -/
def contents (S : List Sym) : List (List Char) := (S.splitOnP Sym.isEol).map text

/-- The ends of the lines, of which the last line has none. -/
def ends (S : List Sym) : List Sym := S.filter Sym.isEol

variable {S P Q R N : List Sym}

/-! ## Lines put together -/

theorem contents_ne_nil (S : List Sym) : contents S ≠ [] := by simp [contents]

theorem contents_append_eol (S S' : List Sym) (d : Delim) :
    contents (S ++ .eol d :: S') = contents S ++ contents S' := by
  rw [contents, List.splitOnP_append_cons _ _ rfl, List.map_append, contents, contents]

theorem contents_line (h : ∀ s ∈ N, s.isEol = false) : contents N = [text N] := by
  rw [contents, List.splitOnP_eq_singleton h, List.map_singleton]

@[simp] theorem contents_nil : contents [] = [[]] := rfl

@[simp] theorem ends_append (S S' : List Sym) : ends (S ++ S') = ends S ++ ends S' :=
  List.filter_append ..

theorem ends_line (h : ∀ s ∈ N, s.isEol = false) : ends N = [] := by
  simpa [ends] using h

@[simp] theorem ends_cons_eol (d : Delim) (S : List Sym) : ends (.eol d :: S) = .eol d :: ends S :=
  rfl

/-- A buffer is cut at its first end of a line. -/
theorem cases_eol (S : List Sym) :
    (∀ s ∈ S, s.isEol = false) ∨
      ∃ N d S', S = N ++ .eol d :: S' ∧ ∀ s ∈ N, s.isEol = false := by
  induction S with
  | nil => exact .inl (by simp)
  | cons s S ih =>
    cases s with
    | eol d => exact .inr ⟨[], d, S, rfl, by simp⟩
    | char c h =>
      rcases ih with hline | ⟨N, d, S', rfl, hN⟩
      · exact .inl (List.forall_mem_cons.2 ⟨rfl, hline⟩)
      · exact .inr ⟨.char c h :: N, d, S', rfl, List.forall_mem_cons.2 ⟨rfl, hN⟩⟩

/-- The induction over the lines of a buffer. -/
theorem lines_induction {motive : List Sym → Prop} (S : List Sym)
    (line : ∀ N, (∀ s ∈ N, s.isEol = false) → motive N)
    (cons : ∀ N d S, (∀ s ∈ N, s.isEol = false) → motive S → motive (N ++ .eol d :: S)) :
    motive S := by
  induction hn : S.length using Nat.strong_induction_on generalizing S with
  | _ n ih =>
    rcases cases_eol S with hline | ⟨N, d, S', rfl, hN⟩
    · exact line S hline
    · rw [List.length_append, List.length_cons] at hn
      exact cons N d S' hN (ih S'.length (by omega) S' rfl)

theorem countP_line (h : ∀ s ∈ N, s.isEol = false) : N.countP Sym.isEol = 0 :=
  List.countP_eq_zero.2 (by simpa using h)

theorem length_contents (S : List Sym) : (contents S).length = S.countP Sym.isEol + 1 := by
  induction S using lines_induction with
  | line N hN => rw [contents_line hN, countP_line hN, List.length_singleton]
  | cons N d S hN ih =>
    rw [contents_append_eol, contents_line hN, List.length_append, ih, List.countP_append,
      List.countP_cons, countP_line hN, List.length_singleton]
    simp [Sym.isEol]
    omega

theorem length_ends (S : List Sym) : (ends S).length = S.countP Sym.isEol :=
  (List.countP_eq_length_filter ..).symm

theorem isDelim_of_mem_line (hN : ∀ s ∈ N, s.isEol = false) {c : Char} (hc : c ∈ text N) :
    isDelim c = false := by
  obtain ⟨s, hs, hc⟩ := List.mem_flatMap.1 hc
  cases s with
  | eol d => simpa [Sym.isEol] using hN _ hs
  | char c' h => rwa [List.mem_singleton.1 hc]

/-- The texts of the lines have no end of a line in them. -/
theorem isDelim_of_mem_contents {l : List Char} (hl : l ∈ contents S) {c : Char} (hc : c ∈ l) :
    isDelim c = false := by
  induction S using lines_induction with
  | line N hN =>
    rw [contents_line hN, List.mem_singleton] at hl
    exact isDelim_of_mem_line hN (hl ▸ hc)
  | cons N d S hN ih =>
    rw [contents_append_eol, contents_line hN, List.singleton_append, List.mem_cons] at hl
    rcases hl with rfl | hl
    · exact isDelim_of_mem_line hN hc
    · exact ih hl

/-- The texts of the lines and the ends between them make the text. -/
theorem text_congr {S S' : List Sym} (h : contents S = contents S') (he : ends S = ends S') :
    text S = text S' := by
  induction S using lines_induction generalizing S' with
  | line N hN =>
    rw [ends_line hN] at he
    rcases cases_eol S' with hline | ⟨N', d, S'', rfl, -⟩
    · rw [contents_line hN, contents_line hline] at h
      exact List.singleton_inj.1 h
    · simp at he
  | cons N d S hN ih =>
    rcases cases_eol S' with hline | ⟨N', d', S'', rfl, hN'⟩
    · rw [ends_line hline] at he
      simp at he
    · rw [ends_append, ends_append, ends_line hN, ends_line hN'] at he
      rw [contents_append_eol, contents_append_eol, contents_line hN, contents_line hN'] at h
      simp only [List.nil_append, ends_cons_eol, List.cons.injEq, Sym.eol.injEq] at he
      simp only [List.singleton_append, List.cons.injEq] at h
      rw [text_append, text_append, text_cons, text_cons, h.1, he.1, ih h.2 he.2]

/-- The text of a buffer gives the texts of the lines between known ends. -/
theorem contents_inj {S S' : List Sym} (he : ends S = ends S') (h : text S = text S') :
    contents S = contents S' := by
  have hline {N : List Sym} (hN : ∀ s ∈ N, s.isEol = false) (d : Delim) (S : List Sym) :
      (text (N ++ .eol d :: S)).takeWhile (fun c => !isDelim c) = text N := by
    have hall : ∀ c ∈ text N, (!isDelim c) = true := fun c hc => by
      rw [isDelim_of_mem_line hN hc]
      rfl
    rw [text_append, text_cons, List.takeWhile_append_of_pos hall]
    cases d <;> simp [Sym.chars, Delim.chars, isDelim]
  induction S using lines_induction generalizing S' with
  | line N hN =>
    rw [ends_line hN] at he
    rcases cases_eol S' with hline | ⟨N', d, S'', rfl, -⟩
    · rw [contents_line hN, contents_line hline, h]
    · simp at he
  | cons N d S hN ih =>
    rcases cases_eol S' with hline | ⟨N', d', S'', rfl, hN'⟩
    · rw [ends_line hline] at he
      simp at he
    · have htext := congrArg (List.takeWhile fun c => !isDelim c) h
      rw [hline hN, hline hN'] at htext
      rw [ends_append, ends_append, ends_line hN, ends_line hN'] at he
      simp only [List.nil_append, ends_cons_eol, List.cons.injEq, Sym.eol.injEq] at he
      obtain ⟨rfl, he⟩ := he
      rw [text_append, text_append, text_cons, text_cons, htext, List.append_cancel_left_eq,
        List.append_cancel_left_eq] at h
      rw [contents_append_eol, contents_append_eol, contents_line hN, contents_line hN', htext,
        ih he h]

/-! ## Parts -/

/-- A part of a buffer behind which a line starts. -/
def Whole (P : List Sym) : Prop := P = [] ∨ ∃ S d, P = S ++ [.eol d]

/-- A part of a buffer in front of which a line ends. -/
def EolFirst (Q : List Sym) : Prop := Q = [] ∨ ∃ d S, Q = .eol d :: S

theorem contents_append_whole (h : Whole P) (S : List Sym) :
    contents (P ++ S) = (contents P).take (P.countP Sym.isEol) ++ contents S := by
  rcases h with rfl | ⟨P, d, rfl⟩
  · rfl
  · rw [List.append_assoc, List.singleton_append, contents_append_eol, contents_append_eol,
      List.countP_append, List.take_left' (by simp [length_contents, Sym.isEol])]

theorem contents_append_eolFirst (h : EolFirst Q) (S : List Sym) :
    contents (S ++ Q) = contents S ++ (contents Q).tail := by
  rcases h with rfl | ⟨d, Q, rfl⟩
  · simp
  · have hQ := contents_append_eol [] Q d
    rw [contents_append_eol, ← List.nil_append (Sym.eol d :: Q), hQ, contents_nil,
      List.singleton_append, List.tail_cons]

/-- The line `N` of a buffer, with the lines in front of it and all behind it. -/
structure LineAt (S P N Q : List Sym) : Prop where
  eq : S = P ++ (N ++ Q)
  whole : Whole P
  line : ∀ s ∈ N, s.isEol = false
  eolFirst : EolFirst Q

namespace LineAt

theorem contents (h : LineAt S P N Q) :
    contents S = (Paragraphs.contents P).take (P.countP Sym.isEol) ++
      text N :: (Paragraphs.contents Q).tail := by
  rw [h.eq, contents_append_whole h.whole, contents_append_eolFirst h.eolFirst,
    contents_line h.line, List.singleton_append]

theorem getElem?_contents (h : LineAt S P N Q) :
    (Paragraphs.contents S)[P.countP Sym.isEol]? = some (text N) := by
  have hlen : ((Paragraphs.contents P).take (P.countP Sym.isEol)).length = P.countP Sym.isEol := by
    rw [List.length_take_of_le]
    rw [length_contents]
    omega
  rw [h.contents, List.getElem?_append_right hlen.le, hlen, Nat.sub_self, List.getElem?_cons_zero]

/-- The lines of a buffer one after the other. -/
theorem cons (h : LineAt S P N Q) (M : List Sym) (d : Delim) :
    LineAt (M ++ .eol d :: S) (M ++ .eol d :: P) N Q where
  eq := by rw [h.eq, List.append_assoc, List.cons_append]
  whole := by
    rcases h.whole with rfl | ⟨P, d', rfl⟩
    · exact .inr ⟨M, d, rfl⟩
    · exact .inr ⟨M ++ .eol d :: P, d', by rw [List.append_assoc, List.cons_append]⟩
  line := h.line
  eolFirst := h.eolFirst

theorem of_line (hN : ∀ s ∈ N, s.isEol = false) (hQ : EolFirst Q) : LineAt (N ++ Q) [] N Q :=
  ⟨rfl, .inl rfl, hN, hQ⟩

/-- The part of a line behind some place of it. -/
theorem drop_eq (h : LineAt S P N Q) {k : ℕ} (hk : k ≤ N.length) :
    S.drop (P.length + k) = N.drop k ++ Q := by
  rw [h.eq, List.drop_append, List.drop_of_length_le (Nat.le_add_right ..), Nat.add_sub_cancel_left,
    List.nil_append, List.drop_append_of_le_length hk]

theorem take_eq (h : LineAt S P N Q) {k : ℕ} (hk : k ≤ N.length) :
    S.take (P.length + k) = P ++ N.take k := by
  rw [h.eq, List.take_length_add_append, List.take_append_of_le_length hk]

end LineAt

theorem paragraphs_of_line {t : List Char} (h : ∀ c ∈ t, isDelim c = false) :
    paragraphs t = t.map ofChar := by
  simpa [paragraphs] using paragraphs_append h []

theorem map_ofChar_text (hN : ∀ s ∈ N, s.isEol = false) : (text N).map ofChar = N := by
  induction N with
  | nil => rfl
  | cons s N ih =>
    obtain ⟨hs, hrest⟩ := List.forall_mem_cons.1 hN
    cases s with
    | eol d => simp [Sym.isEol] at hs
    | char c hc =>
      have hn : c ≠ '\n' := by
        rintro rfl
        simp [isDelim] at hc
      have hr : c ≠ '\r' := by
        rintro rfl
        simp [isDelim] at hc
      rw [text_cons, List.map_append, ih hrest]
      simp [Sym.chars, ofChar, hn, hr, hc]

theorem length_text_of_line (hN : ∀ s ∈ N, s.isEol = false) : (text N).length = N.length := by
  rw [← congrArg List.length (map_ofChar_text hN), List.length_map]

/-- One line is changed. -/
theorem LineAt.contents_modify {S' N' : List Sym} (h : LineAt S P N Q) (h' : LineAt S' P N' Q)
    {f : List Char → List Char} (hf : f (text N) = text N') :
    Paragraphs.contents S' = (Paragraphs.contents S).modify (P.countP Sym.isEol) f ∧
      ends S' = ends S := by
  have hlen : ((Paragraphs.contents P).take (P.countP Sym.isEol)).length = P.countP Sym.isEol := by
    rw [List.length_take_of_le]
    rw [length_contents]
    omega
  constructor
  · rw [h.contents, h'.contents, ← hf, List.modify_eq_take_drop, List.take_left' hlen,
      List.drop_left' hlen, List.modifyHead_cons]
  · rw [h.eq, h'.eq]
    simp only [ends_append, ends_line h.line, ends_line h'.line]

theorem exists_lineAt_of_whole (hP : Whole P) (R : List Sym) :
    ∃ N Q, LineAt (P ++ R) P N Q := by
  rcases cases_eol R with hline | ⟨N, d, Q, rfl, hN⟩
  · exact ⟨R, [], by simp, hP, hline, .inl rfl⟩
  · exact ⟨N, .eol d :: Q, rfl, hP, hN, .inr ⟨d, Q, rfl⟩⟩

theorem exists_lineAt (S : List Sym) {n : ℕ} (hn : n ≤ S.countP Sym.isEol) :
    ∃ P N Q, LineAt S P N Q ∧ P.countP Sym.isEol = n := by
  induction S using lines_induction generalizing n with
  | line N hN =>
    rw [countP_line hN] at hn
    exact ⟨[], N, [], by simpa using LineAt.of_line hN (.inl rfl), (Nat.le_zero.1 hn).symm⟩
  | cons N d S hN ih =>
    cases n with
    | zero => exact ⟨[], N, .eol d :: S, LineAt.of_line hN (.inr ⟨d, S, rfl⟩), rfl⟩
    | succ n =>
      rw [List.countP_append, List.countP_cons, countP_line hN] at hn
      simp only [Sym.isEol, if_true] at hn
      obtain ⟨P, M, Q, hat, hcount⟩ := ih (n := n) (by omega)
      refine ⟨_, M, Q, hat.cons N d, ?_⟩
      rw [List.countP_append, List.countP_cons, countP_line hN, hcount]
      simp [Sym.isEol]

theorem exists_lineAt_of_le (S : List Sym) {i : ℕ} (hi : i ≤ S.length) :
    ∃ P N Q, LineAt S P N Q ∧ P.length ≤ i ∧ i ≤ P.length + N.length := by
  induction S using lines_induction generalizing i with
  | line N hN =>
    exact ⟨[], N, [], by simpa using LineAt.of_line hN (.inl rfl), Nat.zero_le _, by simpa using hi⟩
  | cons N d S hN ih =>
    rcases Nat.lt_or_ge N.length i with hlt | hle
    · rw [List.length_append, List.length_cons] at hi
      obtain ⟨P, M, Q, hat, hle, hge⟩ := ih (i := i - (N.length + 1)) (by omega)
      refine ⟨_, M, Q, hat.cons N d, ?_, ?_⟩ <;> rw [List.length_append, List.length_cons] <;> omega
    · have hat := LineAt.of_line hN (.inr ⟨d, S, rfl⟩)
      exact ⟨[], N, .eol d :: S, hat, Nat.zero_le _, by simpa using hle⟩

/-! ## Lines as one text -/

/-- Lines between which there are only `\n` as one text. -/
theorem text_eq_intercalate (h : ∀ e ∈ ends S, e = .eol .lf) :
    text S = List.intercalate ['\n'] (contents S) := by
  induction S using lines_induction with
  | line N hN => rw [contents_line hN, List.intercalate_singleton]
  | cons N d S hN ih =>
    rw [ends_append, ends_line hN, List.nil_append, ends_cons_eol, List.forall_mem_cons] at h
    obtain ⟨hd, hS⟩ := h
    rw [text_append, text_cons, hd, contents_append_eol, contents_line hN, List.singleton_append,
      List.intercalate_cons_of_ne_nil (contents_ne_nil S), ← ih hS]
    simp [Sym.chars, Delim.chars]

theorem contents_paragraphs_intercalate {ls : List (List Char)} (hne : ls ≠ [])
    (h : ∀ l ∈ ls, ∀ c ∈ l, isDelim c = false) :
    contents (paragraphs (List.intercalate ['\n'] ls)) = ls ∧
      ends (paragraphs (List.intercalate ['\n'] ls)) =
        List.replicate (ls.length - 1) (.eol .lf) := by
  induction ls with
  | nil => exact absurd rfl hne
  | cons l ls ih =>
    obtain ⟨hl, hls⟩ := List.forall_mem_cons.1 h
    have hline : ∀ s ∈ l.map ofChar, s.isEol = false := by
      simpa using fun c hc => isEol_ofChar (hl c hc)
    rcases eq_or_ne ls [] with rfl | hne'
    · have ht := paragraphs_append hl []
      rw [List.append_nil, paragraphs, List.append_nil] at ht
      rw [List.intercalate_singleton, ht, contents_line hline, ends_line hline, text_map_ofChar]
      exact ⟨rfl, rfl⟩
    · obtain ⟨hcontents, hends⟩ := ih hne' hls
      have hn (t : List Char) : paragraphs ('\n' :: t) = .eol .lf :: paragraphs t := by
        rw [paragraphs, if_neg (by simp)]
        rfl
      rw [List.intercalate_cons_of_ne_nil hne', List.append_assoc, paragraphs_append hl,
        List.singleton_append, hn, contents_append_eol, contents_line hline, ends_append,
        ends_line hline, ends_cons_eol, hcontents, hends, text_map_ofChar]
      refine ⟨rfl, ?_⟩
      obtain ⟨n, hlen⟩ : ∃ n, ls.length = n + 1 :=
        Nat.exists_eq_succ_of_ne_zero (by simpa using hne')
      rw [List.length_cons, hlen]
      rfl

/-- The lines of a part of a buffer in another order, with the ends where they were. -/
theorem contents_rejoin {ls : List (List Char)} (hends : ∀ e ∈ ends R, e = .eol .lf)
    (hperm : ls.Perm (contents R)) :
    contents (paragraphs (List.intercalate ['\n'] ls)) = ls ∧
      ends (paragraphs (List.intercalate ['\n'] ls)) = ends R := by
  have hne : ls ≠ [] := fun hnil => contents_ne_nil R (List.nil_perm.1 (hnil ▸ hperm))
  obtain ⟨hcontents, hends'⟩ := contents_paragraphs_intercalate hne
    fun l hl c hc => isDelim_of_mem_contents (hperm.subset hl) hc
  refine ⟨hcontents, hends'.trans ?_⟩
  rw [hperm.length_eq, length_contents, Nat.add_sub_cancel, ← length_ends]
  exact (List.eq_replicate_of_mem hends).symm

end Paragraphs
