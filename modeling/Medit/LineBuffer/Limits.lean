import Medit.LineBuffer.Ops

/-!
# The limits of the line buffer

What the machine types of the tree do not hold. The field `count` has 26 bits, so that the
last line of a tree with `2 ^ 26 - 1` lines cannot be split; `n_marks` is compared as an `int`, so that
no mark can be taken from a line with `2 ^ 31` of them.

## Main results

* `BTree.insert_eq_none` — there is no line with the number `2 ^ 26 - 1`.
* `MarkBuffer.addLineMarks_eq` — any number of marks on the first line of an empty text.
-/

namespace Medit

open Function (update)

namespace BTree

variable {t t' : BTree}

/-! ## Lines -/

/-- Every `count` is in its bit-field. -/
def CountsFit (t : BTree) : Prop := ∀ p, t.count p < 2 ^ 26

theorem countBits_lt (n : ℤ) : countBits n < 2 ^ 26 := by
  simp only [countBits]
  omega

theorem new_countsFit : new.CountsFit := by
  intro p
  simp only [new, Function.update_apply]
  split_ifs <;> decide

theorem CountsFit.setCount (h : t.CountsFit) (p : Ptr) (n : ℤ) : (t.setCount p n).CountsFit := by
  intro q
  simp only [BTree.setCount, Function.update_apply]
  split_ifs
  · exact countBits_lt n
  · exact h q

theorem CountsFit.btNodeNew (h : t.CountsFit) (parent : Option Ptr) (bottom : Bool)
    (children : List Ptr) (count nMarks : ℕ) :
    (t.btNodeNew parent bottom children count nMarks).1.CountsFit := by
  intro q
  simp only [BTree.btNodeNew, Function.update_apply]
  split_ifs
  · exact countBits_lt _
  · exact h q

theorem setParents_count (cs : List Ptr) (p : Ptr) : (t.setParents cs p).count = t.count := by
  induction cs generalizing t with
  | nil => rfl
  | cons c cs ih => exact ih

theorem CountsFit.addCounts (h : t.CountsFit) {fuel : ℕ} {p : Option Ptr}
    (heq : t.addCounts fuel p = some t') : t'.CountsFit := by
  induction fuel generalizing t p with
  | zero =>
    cases p with
    | none => exact Option.some.inj heq ▸ h
    | some p => simp [BTree.addCounts] at heq
  | succ fuel ih =>
    cases p with
    | none => exact Option.some.inj heq ▸ h
    | some p => exact ih (h.setCount p _) heq

theorem CountsFit.splitNode (h : t.CountsFit) {node : Ptr} (heq : t.splitNode node = some t') :
    t'.CountsFit := by
  have hgrow : (if t.parent node = none then t.growRoot node else t).CountsFit := by
    split_ifs
    · exact h.btNodeNew none false [node] (t.count node) (t.nMarks node)
    · exact h
  rw [BTree.splitNode] at heq
  generalize (if t.parent node = none then t.growRoot node else t) = t₁ at heq hgrow
  simp only [BTree.splitChild, Option.bind_eq_bind, Option.bind_eq_some_iff, nodeInsert] at heq
  obtain ⟨parent, -, i, -, -, -, t₂, ⟨-, -, -, -, ht₂⟩, -, -, -, -, heq⟩ := heq
  have h₂ : t₂.CountsFit := by
    obtain rfl := Option.some.inj ht₂
    exact (hgrow.btNodeNew (some parent) (t₁.isBottom node) [] (t₁.upperCount node) 0).setCount node _
  have hcount : t'.count = t₂.count := by
    split_ifs at heq <;> obtain rfl := Option.some.inj heq
    · exact setParents_count ..
    · exact setParents_count ..
  intro p
  rw [hcount]
  exact h₂ p

theorem CountsFit.splitNodes (h : t.CountsFit) {fuel : ℕ} {node : Ptr}
    (heq : t.splitNodes fuel node = some t') : t'.CountsFit := by
  induction fuel generalizing t node with
  | zero => simp [BTree.splitNodes] at heq
  | succ fuel ih =>
    rw [BTree.splitNodes] at heq
    split_ifs at heq
    · simp only [Option.bind_eq_bind, Option.bind_eq_some_iff] at heq
      obtain ⟨t₁, hsplit, parent, -, heq⟩ := heq
      exact ih (h.splitNode hsplit) heq
    · exact Option.some.inj heq ▸ h

/-- What an insertion asserts at its end. -/
theorem CountsFit.insert (h : t.CountsFit) {index : ℕ} {d : Ptr}
    (heq : t.insert index = some (t', d)) : t'.CountsFit ∧ t'.getData index = some d := by
  simp only [BTree.insert, Option.bind_eq_bind, Option.bind_eq_some_iff, nodeInsert] at heq
  obtain ⟨-, -, ⟨node, i⟩, -, -, -, -, -, t₁, ⟨-, -, -, -, ht₁⟩, t₂, hadd, t₃, hsplit, _, hget, heq⟩ :=
    heq
  have h₁ : t₁.CountsFit := by
    obtain rfl := Option.some.inj ht₁
    exact h
  obtain ⟨rfl, rfl⟩ := Prod.mk.inj (Option.some.inj heq)
  refine ⟨(h₁.addCounts hadd).splitNodes hsplit, ?_⟩
  by_contra hne
  simp [gAssert, hne] at hget

/-- A line with the number `2 ^ 26 - 1` is not inserted. -/
theorem CountsFit.insert_eq_none (h : t.CountsFit) {index : ℕ} (hindex : 2 ^ 26 - 1 ≤ index) :
    t.insert index = none := by
  rw [Option.eq_none_iff_forall_not_mem]
  rintro ⟨t', d⟩ heq
  obtain ⟨hfit, hget⟩ := h.insert heq
  have hroot := hfit t'.root
  rw [getData, gAssert, if_neg (by omega)] at hget
  simp at hget

theorem CountsFit.insertRange (h : t.CountsFit) {first num : ℤ}
    (heq : t.insertRange first num = some t') : t'.CountsFit := by
  have key (n : ℕ) : ∀ t₁, (List.range n).foldlM
      (fun t _ => (BTree.insert t first.toNat).map Prod.fst) t = some t₁ → t₁.CountsFit := by
    induction n with
    | zero => exact fun t₁ heq => Option.some.inj heq ▸ h
    | succ n ih =>
      intro t₁ heq
      rw [List.range_succ, List.foldlM_append] at heq
      simp only [Option.bind_eq_bind, Option.bind_eq_some_iff] at heq
      obtain ⟨t₂, hrun, heq⟩ := heq
      obtain ⟨⟨t₃, d⟩, hins, rfl⟩ : ∃ r, BTree.insert t₂ first.toNat = some r ∧ r.1 = t₁ := by
        simpa using heq
      exact ((ih t₂ hrun).insert hins).1
  simp only [BTree.insertRange, Option.bind_eq_bind, Option.bind_eq_some_iff] at heq
  obtain ⟨-, -, -, -, heq⟩ := heq
  exact key _ _ heq

/-! ## Marks -/

/-- An empty text with `n` marks counted on its line. -/
def emptyText (n : ℕ) (marks : List MarkPtr) (mark : MarkPtr → LineMark) : BTree :=
  { new with
    nMarks := update (update (fun _ => 0) 1 n) 0 n
    marks := update (fun _ => []) 1 marks
    mark := mark }

section EmptyText

variable (n : ℕ) (ms : List MarkPtr) (f : MarkPtr → LineMark)

theorem getLine_emptyText : (emptyText n ms f).getLine 0 = some 1 := rfl

theorem size_emptyText : toInt (emptyText n ms f).size = 1 := rfl

theorem marksOf_emptyText : (emptyText n ms f).marksOf 1 = ms.take n := by
  simp [marksOf, emptyText]

theorem setMarks_emptyText (ms' : List MarkPtr) :
    (emptyText n ms f).setMarks 1 ms' = emptyText n ms' f := by
  simp [setMarks, emptyText]

/-- Counting one more mark. -/
theorem updateNMarks_emptyText (hn : n + 1 < 2 ^ 32) :
    (emptyText n ms f).updateNMarks 1 1 = some (emptyText (n + 1) ms f) := by
  have hguint : guint ((n : ℤ) + 1) = n + 1 := by exact_mod_cast guint_eq hn
  have hone : (emptyText n ms f).parent 1 = some 0 := rfl
  have hzero : (emptyText n ms f).parent 0 = none := rfl
  have h1 : (emptyText n ms f).nMarks 1 = n := by simp [emptyText]
  have h0 : (emptyText n ms f).nMarks 0 = n := by simp [emptyText]
  have hdepth : (emptyText n ms f).depth + 2 = 2 := rfl
  rw [updateNMarks, hdepth, addMarks, gAssert_true (Or.inl Int.one_pos), Option.bind_eq_bind,
    Option.bind_some, h1, hone, addMarks, gAssert_true (Or.inl Int.one_pos), Option.bind_eq_bind,
    Option.bind_some]
  simp only [setNMarks, hguint]
  have h0' : update (emptyText n ms f).nMarks 1 (n + 1) 0 = n := by simp [h0]
  rw [h0', hguint, hzero, addMarks]
  simp only [emptyText, Option.some.injEq, mk.injEq, true_and, and_true]
  funext p
  grind [Function.update_apply]

theorem addMark_emptyText {m : MarkPtr} (hn : n + 1 < 2 ^ 32) (hlen : ms.length = n)
    (hnone : (f m).line = none) (hbuf : (f m).buffer = true) :
    (emptyText n ms f).addMark m 0 =
      some (emptyText (n + 1) (ms ++ [m]) (update f m ⟨true, some 1, 0, 1⟩)) := by
  have htake : ms.take n = ms := by rw [← hlen, List.take_length]
  have hset : (emptyText (n + 1) (ms ++ [m]) f).setMarkLine m (some 1) 0 1 =
      some (emptyText (n + 1) (ms ++ [m]) (update f m ⟨true, some 1, 0, 1⟩)) := by
    simp [setMarkLine, emptyText, hbuf, LineMark.setLine]
  have hnone' : ((emptyText n ms f).mark m).line = none := hnone
  have hstamp : (emptyText (n + 1) (ms ++ [m]) f).stamp = 1 := rfl
  simp [addMark, size_emptyText, hnone', getLine_emptyText, lineAddMark, marksOf_emptyText, htake,
    setMarks_emptyText, updateNMarks_emptyText n _ _ hn, hstamp, hset]

end EmptyText

end BTree

namespace MarkBuffer

/-- The marks `0`, `1`, …, `n - 1` in the buffer. -/
def firstMarks (n : ℕ) (m : MarkPtr) : LineMark := if m < n then ⟨true, some 1, 0, 1⟩ else LineMark.init

/-- An empty text with many marks. -/
def manyMarks (n : ℕ) : MarkBuffer := ⟨[], BTree.emptyText n (List.range n) (firstMarks n)⟩

/-- Another mark. -/
theorem addLineMark_manyMarks {n : ℕ} (hn : n + 1 < 2 ^ 32) :
    (manyMarks n).addLineMark n 0 = some (manyMarks (n + 1)) := by
  have hbuf : ((manyMarks n).lineBuf.mark n).buffer = false := by
    simp [manyMarks, BTree.emptyText, firstMarks, LineMark.init]
  have hset : (manyMarks n).lineBuf.setMarkBuffer n true = some (BTree.emptyText n (List.range n)
      (update (firstMarks n) n ⟨true, none, -1, 0⟩)) := by
    simp [BTree.setMarkBuffer, manyMarks, BTree.emptyText, firstMarks, LineMark.init]
  have hadd := BTree.addMark_emptyText n (List.range n) (update (firstMarks n) n ⟨true, none, -1, 0⟩)
    (m := n) hn (by simp) (by simp) (by simp)
  have hmark : update (firstMarks n) n ⟨true, some 1, 0, 1⟩ = firstMarks (n + 1) := by
    funext m
    grind [Function.update_apply, firstMarks]
  rw [Function.update_idem, hmark] at hadd
  have hget : (manyMarks n).lineBuf.getLine 0 = some 1 := BTree.getLine_emptyText ..
  have hcount : (manyMarks n).lineCount = 1 := rfl
  rw [addLineMark, if_neg (by simp [hbuf])]
  simp only [hcount, Nat.cast_one, show ¬((0 : ℤ) < 0 ∨ (1 : ℤ) ≤ 0) by decide, if_false, hget, hset,
    hadd, Option.bind_eq_bind, Option.bind_some]
  rw [← List.range_succ]
  rfl

/-- Any number of marks. -/
theorem addLineMarks_eq {n : ℕ} (hn : n < 2 ^ 32) :
    (List.range n).foldlM (fun b m => addLineMark b m 0) new = some (manyMarks n) := by
  induction n with
  | zero =>
    have : manyMarks 0 = new := by
      simp [manyMarks, BTree.emptyText, new, BTree.new]
      rfl
    rw [this]
    rfl
  | succ n ih =>
    rw [List.range_succ, List.foldlM_append, ih (by omega)]
    simp [addLineMark_manyMarks hn]

/-- None of `2 ^ 31` marks can be deleted: their number is a negative `int`. -/
theorem deleteLineMark_manyMarks {n : ℕ} (hge : 2 ^ 31 ≤ n) (hlt : n < 2 ^ 32) :
    (manyMarks n).deleteLineMark 0 = none := by
  have hzero : firstMarks n 0 = ⟨true, some 1, 0, 1⟩ := if_pos (by show 0 < n; omega)
  have hmark : (manyMarks n).lineBuf.mark 0 = ⟨true, some 1, 0, 1⟩ := hzero
  have hstamp : (manyMarks n).lineBuf.stamp = 1 := rfl
  have hline : (manyMarks n).lineBuf.getMarkLine 0 = some ((manyMarks n).lineBuf, 0) := by
    simp [BTree.getMarkLine, hmark, hstamp]
  have hget : (manyMarks n).lineBuf.getLine 0 = some 1 := BTree.getLine_emptyText ..
  have hset : (manyMarks n).lineBuf.setMarkLine 0 none (-1) 0 = some (BTree.emptyText n (List.range n)
      (update (firstMarks n) 0 ⟨true, none, -1, 0⟩)) := by
    simp [BTree.setMarkLine, LineMark.setLine, manyMarks, BTree.emptyText, hzero]
  have hupdate (f : MarkPtr → LineMark) (ms : List MarkPtr) :
      (BTree.emptyText n ms f).updateNMarks 1 (-1) = none := by
    have hn : toInt ((BTree.emptyText n ms f).nMarks 1) < 0 := by
      have : (BTree.emptyText n ms f).nMarks 1 = n := by simp [BTree.emptyText]
      rw [this, toInt, if_neg (by omega)]
      omega
    rw [BTree.updateNMarks, BTree.addMarks, gAssert, if_neg (by omega)]
    rfl
  rw [deleteLineMark, hmark, if_pos rfl, BTree.removeMark, hmark]
  simp only [hline, hget, gAssert_true, hset, Option.bind_eq_bind, Option.bind_some, BTree.lineRemoveMark,
    BTree.setMarks_emptyText, hupdate, Option.bind_none, Option.bind_fun_none]

/-- A text put into an empty buffer. -/
theorem insertText_new_countsFit {c : Char} {cs : List Char} {b : MarkBuffer}
    (hc : c ≠ '\n' ∧ c ≠ '\r') (h : new.insertText 0 (c :: cs) = some b) : b.lineBuf.CountsFit := by
  have hnew : new.lineBuf.CountsFit := BTree.new_countsFit
  have hpush (t : BTree) (first last : ℕ) :
      pushMarks t (TextLines.startsLine '\n' new.text 0) (c == '\n' || c == '\r') first last = some t := by
    simp [pushMarks, hc.1, hc.2]
  simp only [insertText, hpush, Option.bind_eq_bind, Option.bind_eq_some_iff] at h
  obtain ⟨t, hlines, t', ht, hb⟩ := h
  obtain rfl := Option.some.inj ht
  obtain rfl := Option.some.inj hb
  simp only [insertLines] at hlines
  split_ifs at hlines
  · simp only [BTree.splitLine, Option.bind_eq_bind, Option.bind_eq_some_iff] at hlines
    obtain ⟨-, -, hinsert⟩ := hlines
    exact hnew.insertRange hinsert
  · exact Option.some.inj hlines ▸ hnew

end MarkBuffer

end Medit
