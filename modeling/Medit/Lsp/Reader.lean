import Medit.Library.Framing
import Medit.Lsp.Message

/-!
# Reading messages

A client takes the messages of a server out of what it reads, however the stream is cut. It gives
up, though, on a message that it has a part of when the part and the header are longer than the
greatest message.

## Main results

* `findMessage_part`, `findMessage_frame` — a message is found when all of it is there.
* `dispatched_iff` — when the messages arrive.
-/

namespace Medit

open CString

/-! ## Headers -/

theorem mem_header {n : ℕ} {c : UInt8} (h : c ∈ header n) : c ≠ 13 ∧ c ≠ 10 ∧ c ≠ 0 := by
  simp only [header, List.mem_append, List.mem_cons] at h
  rcases h with h | rfl | rfl | h
  · have hall : (lengthField.all fun c => c ≠ 13 ∧ c ≠ 10 ∧ c ≠ 0) = true := by decide
    simpa using List.all_eq_true.1 hall c h
  · decide
  · decide
  · have hdigit := isDigit_of_mem_decimal h
    refine ⟨?_, ?_, ?_⟩ <;> rintro rfl <;> revert hdigit <;> decide

theorem lineLength_header {n : ℕ} (h : n < 2 ^ 64) : lineLength (header n) = .ok (some n) := by
  have hname : ∀ c ∈ lengthField, c ≠ 58 := fun c hc => by
    have hall : (lengthField.all (· ≠ 58)) = true := by decide
    simpa using List.all_eq_true.1 hall c hc
  have hdrop : (header n).dropWhile (· != 58) = 58 :: 32 :: decimal n := by
    rw [header, List.dropWhile_append_of_pos (by simpa using hname)]
    simp
  have htake : (header n).takeWhile (· != 58) = lengthField := by
    rw [header, List.takeWhile_append_of_pos (by simpa using hname)]
    simp
  obtain ⟨c, s, hs⟩ := List.exists_cons_of_ne_nil (decimal_ne_nil n)
  obtain ⟨-, hplus, hminus⟩ := not_space_of_isDigit (isDigit_of_mem_decimal (n := n) (c := c)
    (by simp [hs]))
  have hhead : (decimal n).head? = some c := by simp [hs]
  have hcase : strcaseEq lengthField lengthField = true := by decide
  simp [lineLength, hdrop, htake, hcase, strip_decimal, hhead, hplus, hminus, strtoull_decimal h]

theorem contentLength_header {n : ℕ} (h : n < 2 ^ 64) :
    contentLength none (splitSet (fun c => c == 13 || c == 10) (header n)) = .ok (some n) := by
  have hne : header n ≠ [] := by simp [header]
  have hsplit : (header n).splitOnP (fun c => c == 13 || c == 10) = [header n] := by
    refine List.splitOnP_eq_singleton fun c hc => ?_
    obtain ⟨hcr, hlf, -⟩ := mem_header hc
    simp [hcr, hlf]
  rw [splitSet, if_neg hne, hsplit]
  simp [contentLength, lineLength_header h]

/-! ## Finding a message -/

/-- The header of a message ends at its first blank line. -/
theorem headerEnd_frame (n : ℕ) (rest : List UInt8) :
    headerEnd (header n ++ (blankLine ++ rest)) =
      some ((header n).length, (header n).length + 4) := by
  have hskip : ∀ c ∈ header n, c ≠ 13 ∧ c ≠ 0 := fun c hc =>
    ⟨(mem_header hc).1, (mem_header hc).2.2⟩
  have hskip' : ∀ c ∈ header n ++ [13], c ≠ 10 ∧ c ≠ 0 := by
    intro c hc
    rcases List.mem_append.1 hc with hc | hc
    · exact ⟨(mem_header hc).2.1, (mem_header hc).2.2⟩
    · obtain rfl := List.mem_singleton.1 hc
      decide
  have hcrlf : strstrLen blankLine (header n ++ (blankLine ++ rest)) = some (header n).length :=
    strstrLen_found hskip (by decide)
  have hsplit : header n ++ (blankLine ++ rest) =
      (header n ++ [13]) ++ (10 :: 13 :: 10 :: rest) := by simp [blankLine]
  have hlf : strstrLen [10, 10] (header n ++ (blankLine ++ rest)) =
      (strstrLen [10, 10] (10 :: 13 :: 10 :: rest)).map (· + ((header n).length + 1)) := by
    rw [hsplit, strstrLen_skip hskip', List.length_append]
    rfl
  simp only [headerEnd, terminators, List.foldl_cons, List.foldl_nil, hcrlf, hlf]
  cases strstrLen [10, 10] (10 :: 13 :: 10 :: rest) with
  | none => rfl
  | some k =>
    have hlater : ¬ k + ((header n).length + 1) < (header n).length := by omega
    simp [blankLine, hlater]

/-- There is no end of a header in a part of one. -/
theorem headerEnd_part {n : ℕ} {data : List UInt8} (h : data <+: header n ++ [13, 10, 13]) :
    headerEnd data = none := by
  have hpart : ∃ pre s, data = pre ++ s ∧ pre <+: header n ∧ s <+: [13, 10, 13] := by
    rcases Nat.le_total data.length (header n).length with hle | hle
    · exact ⟨data, [], by simp, List.prefix_of_prefix_length_le h (List.prefix_append ..) hle,
        List.nil_prefix⟩
    · obtain ⟨s, rfl⟩ := List.prefix_of_prefix_length_le (List.prefix_append ..) h hle
      exact ⟨header n, s, rfl, List.prefix_refl _, (List.prefix_append_right_inj _).1 h⟩
  obtain ⟨pre, s, rfl, hpre, hs⟩ := hpart
  have hskip : ∀ c ∈ pre, c ≠ 13 ∧ c ≠ 10 ∧ c ≠ 0 := fun c hc => mem_header (hpre.subset hc)
  have hend : strstrLen blankLine s = none ∧ strstrLen [10, 10] s = none := by
    rcases List.prefix_cons_iff.1 hs with rfl | ⟨s₁, rfl, hs₁⟩
    · decide
    rcases List.prefix_cons_iff.1 hs₁ with rfl | ⟨s₂, rfl, hs₂⟩
    · decide
    rcases List.prefix_cons_iff.1 hs₂ with rfl | ⟨s₃, rfl, hs₃⟩
    · decide
    rw [List.prefix_nil.1 hs₃]
    decide
  have hcrlf : strstrLen blankLine (pre ++ s) = none := by
    rw [blankLine, strstrLen_skip fun c hc => ⟨(hskip c hc).1, (hskip c hc).2.2⟩]
    exact Option.map_eq_none_iff.2 hend.1
  have hlf : strstrLen [10, 10] (pre ++ s) = none := by
    rw [strstrLen_skip fun c hc => (hskip c hc).2]
    exact Option.map_eq_none_iff.2 hend.2
  simp [headerEnd, terminators, hcrlf, hlf]

/-- With the header of a message there, the body is waited for. -/
theorem findMessage_header {n : ℕ} (hle : n ≤ lspMaxMessage) (rest : List UInt8) :
    findMessage (header n ++ (blankLine ++ rest)) =
      if rest.length < n then .incomplete else .message ((header n).length + 4) n := by
  have hmax : lspMaxMessage < 2 ^ 64 := by decide
  have hline : strndup (header n ++ (blankLine ++ rest)) (header n).length = header n := by
    rw [strndup_eq (by simp), List.take_left]
    rw [List.take_left]
    exact fun h => (mem_header h).2.2 rfl
  have hlen : (header n ++ (blankLine ++ rest)).length < (header n).length + 4 + n ↔
      rest.length < n := by
    simp only [List.length_append, blankLine, List.length_cons, List.length_nil]
    omega
  have hfit : ¬ n > lspMaxMessage := by omega
  simp [findMessage, headerEnd_frame, hline, contentLength_header (hle.trans_lt hmax), hlen,
    hfit, -List.length_append]

/-- A message of which a part is there is waited for. -/
theorem findMessage_part {body data : List UInt8} (hle : body.length ≤ lspMaxMessage)
    (h : data <+: frame body) (hlt : data.length < (frame body).length) :
    findMessage data = .incomplete := by
  rcases Nat.lt_or_ge data.length ((header body.length).length + 4) with hshort | hlong
  · have hdata : data <+: header body.length ++ [13, 10, 13] := by
      refine List.prefix_of_prefix_length_le h ⟨10 :: body, by simp [frame, blankLine]⟩ ?_
      rw [List.length_append]
      exact Nat.le_of_lt_succ hshort
    rw [findMessage, headerEnd_part hdata]
  · obtain ⟨rest, rfl⟩ : header body.length ++ blankLine <+: data := by
      refine List.prefix_of_prefix_length_le ⟨body, by simp [frame]⟩ h ?_
      rw [List.length_append]
      exact hlong
    have hrest : rest.length < body.length := by
      simp only [frame, List.length_append] at hlt
      omega
    rw [List.append_assoc, findMessage_header hle, if_pos hrest]

/-- A message that is there is found, whatever its body and what comes after it. -/
theorem findMessage_frame {body : List UInt8} (hle : body.length ≤ lspMaxMessage)
    (more : List UInt8) :
    findMessage (frame body ++ more) =
      .message ((header body.length).length + 4) body.length := by
  have hrest : ¬ (body ++ more).length < body.length := by simp
  rw [frame, List.append_assoc, List.append_assoc, findMessage_header hle, if_neg hrest]

/-! ## The input buffer -/

theorem length_frame (body : List UInt8) :
    (frame body).length = (header body.length).length + 4 + body.length := by
  simp [frame, blankLine, Nat.add_assoc, Nat.add_comm 4]

def stream (messages : List Message) : List (List UInt8) := messages.map fun m => frame m.body

/-- `process_in_buf` takes the messages that are there, and gives up on a part that is too long. -/
theorem processInBuf_eq {fuel : ℕ} {r : Reader} {done rest : List Message} {part : List UInt8}
    (hconn : r.disconnected = false) (hbuf : r.inBuf = (stream done).flatten ++ part)
    (hpart : Framing.Partial (stream rest) part) (hfuel : r.inBuf.length < fuel) :
    processInBuf fuel r = { r with
      inBuf := part
      dispatched := r.dispatched ++ done.map (·.body)
      dropped := r.dropped || decide (part.length > lspMaxMessage) } := by
  induction done generalizing fuel r with
  | nil =>
    obtain ⟨fuel, rfl⟩ := Nat.exists_eq_succ_of_ne_zero (Nat.ne_zero_of_lt hfuel)
    obtain rfl : r.inBuf = part := by simpa [stream] using hbuf
    rcases eq_or_ne r.inBuf [] with hnil | hne
    · rw [processInBuf, if_pos (.inr hnil)]
      obtain ⟨inBuf, disconnected, dispatched, dropped⟩ := r
      obtain rfl : inBuf = [] := hnil
      simp
    · obtain ⟨m, rest, rfl⟩ : ∃ m ms, rest = m :: ms := by
        refine List.exists_cons_of_ne_nil ?_
        rintro rfl
        exact hne (List.prefix_nil.1 hpart.isPrefix)
      have hlt : r.inBuf.length < (frame m.body).length := hpart.short _ (by simp [stream])
      have hstart : r.inBuf <+: frame m.body :=
        List.prefix_of_prefix_length_le hpart.isPrefix (by simp [stream]) hlt.le
      rw [processInBuf, if_neg (by simp [hconn, hne]), findMessage_part m.le hstart hlt]
      by_cases hlong : r.inBuf.length > lspMaxMessage <;> simp [hlong]
  | cons m done ih =>
    obtain ⟨fuel, rfl⟩ := Nat.exists_eq_succ_of_ne_zero (Nat.ne_zero_of_lt hfuel)
    have hframe : r.inBuf = frame m.body ++ ((stream done).flatten ++ part) := by
      simpa [stream] using hbuf
    have hlen := congrArg List.length hframe
    rw [List.length_append, length_frame] at hlen
    have hne : r.inBuf ≠ [] := by
      rintro hnil
      rw [hnil, List.length_nil] at hlen
      omega
    have hbody : strndup (r.inBuf.drop ((header m.body.length).length + 4)) m.body.length =
        m.body := by
      have hdrop : r.inBuf.drop ((header m.body.length).length + 4) =
          m.body ++ ((stream done).flatten ++ part) := by
        have hsplit : r.inBuf = (header m.body.length ++ blankLine) ++
            (m.body ++ ((stream done).flatten ++ part)) := by simp [hframe, frame]
        rw [hsplit, List.drop_left' (by rw [List.length_append]; rfl)]
      rw [hdrop, strndup_eq (by simp), List.take_left]
      rw [List.take_left]
      exact m.noZero
    have hdrop : r.inBuf.drop ((header m.body.length).length + 4 + m.body.length) =
        (stream done).flatten ++ part := by
      rw [hframe, List.drop_left' (length_frame _)]
    rw [processInBuf, if_neg (by simp [hconn, hne]), hframe, findMessage_frame m.le, ← hframe]
    simp only [hbody, hdrop]
    rw [ih (by exact hconn) (by rfl) (by dsimp only; omega)]
    simp

/-! ## Whole streams -/

theorem stream_ne_nil (messages : List Message) : ∀ f ∈ stream messages, f ≠ [] := by
  simp [stream, frame, blankLine]

/-- A message that is not whole may have become too long at some read before, and then the
connection is gone. -/
theorem readReady_dropped {r : Reader} (chunk : Chunk) (h : r.dropped = true) :
    (readReady r chunk).dropped = true := by
  have hloop (fuel : ℕ) (r : Reader) (h : r.dropped = true) :
      (processInBuf fuel r).dropped = true := by
    fun_induction processInBuf fuel r <;> simp_all
  exact hloop _ _ h

theorem readAll_dropped {chunks : List Chunk} {r : Reader} (h : r.dropped = true) :
    (chunks.foldl readReady r).dropped = true := by
  induction chunks generalizing r with
  | nil => exact h
  | cons chunk chunks ih => exact ih (readReady_dropped chunk h)

/-- From a point of the stream on, the rest of the messages arrives iff no part of a message is ever
longer than the greatest message. -/
theorem readAll_iff {chunks : List Chunk} {r : Reader} {rest : List Message}
    (hconn : r.disconnected = false) (hdrop : r.dropped = false)
    (hpart : Framing.Partial (stream rest) r.inBuf) (hle : r.inBuf.length ≤ lspMaxMessage)
    (h : r.inBuf ++ (chunks.map (·.bytes)).flatten = (stream rest).flatten) :
    (chunks.foldl readReady r).dispatched = r.dispatched ++ rest.map (·.body) ∧
        (chunks.foldl readReady r).inBuf = [] ∧ (chunks.foldl readReady r).dropped = false ↔
      ∀ read, read <+: chunks →
        Framing.leftover ((stream rest).map List.length)
          (r.inBuf.length + (read.map (·.bytes)).flatten.length) ≤ lspMaxMessage := by
  induction chunks generalizing r rest with
  | nil =>
    have hall : (stream rest).flatten = r.inBuf := by simpa using h.symm
    obtain rfl : rest = [] := by
      have hnil : stream rest = [] := Framing.Partial.eq_nil (hall ▸ hpart)
      simpa [stream] using hnil
    have hnil : r.inBuf = [] := by simpa [stream] using hall.symm
    simp [hnil, hdrop, stream, Framing.leftover]
  | cons chunk chunks ih =>
    have hread : r.inBuf ++ chunk.bytes <+: (stream rest).flatten :=
      ⟨(chunks.map (·.bytes)).flatten, by simpa using h⟩
    have hfirst : ∀ read : List Chunk, read = [] →
        Framing.leftover ((stream rest).map List.length)
          (r.inBuf.length + (read.map (·.bytes)).flatten.length) ≤ lspMaxMessage := by
      rintro _ rfl
      simpa [Framing.leftover_eq hpart] using hle
    obtain ⟨done, rest, part, hrest, hbuf, hpart⟩ := Framing.exists_split hread
    obtain ⟨done, rest, rfl, rfl, rfl⟩ := List.map_eq_append_iff.1 hrest
    change r.inBuf ++ chunk.bytes = (stream done).flatten ++ part at hbuf
    change Framing.Partial (stream rest) part at hpart
    have hstep : readReady r chunk = { r with
        inBuf := part
        dispatched := r.dispatched ++ done.map (·.body)
        dropped := decide (part.length > lspMaxMessage) } := by
      have hloop := processInBuf_eq (r := { r with inBuf := r.inBuf ++ chunk.bytes }) hconn hbuf
        hpart (Nat.lt_succ_self _)
      simpa [readReady, hdrop] using hloop
    have hleft (n : ℕ) : Framing.leftover ((stream (done ++ rest)).map List.length)
        (r.inBuf.length + (chunk.bytes.length + n)) =
        Framing.leftover ((stream rest).map List.length) (part.length + n) := by
      have hlen := congrArg List.length hbuf
      simp only [List.length_append, List.length_flatten] at hlen
      rw [← Nat.add_assoc, hlen, Nat.add_assoc, stream, List.map_append, List.map_append]
      exact Framing.leftover_append ..
    rw [List.foldl_cons, hstep]
    by_cases hlong : part.length > lspMaxMessage
    · have hlost : (chunks.foldl readReady { r with
          inBuf := part
          dispatched := r.dispatched ++ done.map (·.body)
          dropped := decide (part.length > lspMaxMessage) }).dropped = true :=
        readAll_dropped (by simpa using hlong)
      refine ⟨fun hall => ?_, fun hall => ?_⟩
      · rw [hall.2.2] at hlost
        contradiction
      · have hfirst := hall [chunk] (by simp)
        have hpart := Framing.leftover_eq hpart
        have hleft := hleft 0
        simp only [List.map_cons, List.map_nil, List.flatten_cons, List.flatten_nil,
          List.append_nil, Nat.add_zero] at hfirst hleft
        omega
    · have hmore : part ++ (chunks.map (·.bytes)).flatten = (stream rest).flatten := by
        simp only [List.map_cons, List.flatten_cons, ← List.append_assoc, hbuf] at h
        simpa [stream] using h
      have hiff := @ih { r with
        inBuf := part
        dispatched := r.dispatched ++ done.map (·.body)
        dropped := decide (part.length > lspMaxMessage) } rest hconn (by simpa using hlong) hpart
        (by simpa using hlong) hmore
      rw [List.map_append, ← List.append_assoc, hiff]
      refine ⟨fun hall read hprefix => ?_, fun hall read hprefix => ?_⟩
      · rcases List.prefix_cons_iff.1 hprefix with hnil | ⟨read, rfl, htail⟩
        · exact hfirst read hnil
        · simpa [hleft] using hall read htail
      · simpa [hleft] using hall (chunk :: read) (List.cons_prefix_cons.2 ⟨rfl, hprefix⟩)

/-! ## Results -/

/-- However the messages are cut into chunks, all of them are dispatched in order, each once, with
nothing left over and the connection kept, iff at no read more than the greatest message is left of
a frame that has not come in whole. -/
theorem Reader.dispatched_iff (messages : List Message) (chunks : List Chunk)
    (h : (chunks.map (·.bytes)).flatten = (stream messages).flatten) :
    (chunks.foldl readReady Reader.new).dispatched = messages.map (·.body) ∧
        (chunks.foldl readReady Reader.new).inBuf = [] ∧
        (chunks.foldl readReady Reader.new).dropped = false ↔
      ∀ read, read <+: chunks →
        Framing.leftover (messages.map fun m => (frame m.body).length)
          (read.map (·.bytes)).flatten.length ≤ lspMaxMessage := by
  have hiff := readAll_iff (r := Reader.new) rfl rfl
    (Framing.Partial.nil (stream_ne_nil messages)) (Nat.zero_le _) h
  simpa [Reader.new, stream, Function.comp_def] using hiff

/-- A message in two reads. -/
theorem Reader.dispatched_iff_two_reads :
    let message : Message := ⟨ascii "[]".toList, by decide, by decide, by decide⟩
    let chunks : List Chunk :=
      [⟨(frame message.body).take 9, by decide, by decide⟩,
        ⟨(frame message.body).drop 9, by decide, by decide⟩]
    (chunks.foldl readReady Reader.new).dispatched = [message.body] ∧
      (chunks.foldl readReady Reader.new).inBuf = [] ∧
      (chunks.foldl readReady Reader.new).dropped = false := by
  intro message chunks
  refine (Reader.dispatched_iff [message] chunks (by decide)).2 fun read hprefix => ?_
  rcases List.prefix_cons_iff.1 hprefix with rfl | ⟨read, rfl, hmore⟩
  · decide
  rcases List.prefix_cons_iff.1 hmore with rfl | ⟨read, rfl, hnil⟩
  · decide
  rw [List.prefix_nil.1 hnil]
  decide

/-! ## The greatest message -/

/-- Bytes in `k` chunks as great as they may be, or in fewer. -/
def cut : ℕ → List UInt8 → List Chunk
  | 0, _ => []
  | k + 1, s =>
    if h : s = [] then []
    else
      ⟨s.take lspReadChunk, by
        rw [List.length_take]
        exact Nat.le_min.2 ⟨by decide, List.length_pos_iff.2 h⟩, List.length_take_le ..⟩ ::
        cut k (s.drop lspReadChunk)

theorem flatten_cut (k : ℕ) (s : List UInt8) :
    ((cut k s).map (·.bytes)).flatten = s.take (lspReadChunk * k) := by
  induction k generalizing s with
  | zero => simp [cut]
  | succ k ih =>
    rw [cut]
    split
    · rename_i h
      simp [h]
    · rw [List.map_cons, List.flatten_cons, ih, Nat.mul_succ, Nat.add_comm, List.take_add]

theorem cut_prefix (j k : ℕ) (s : List UInt8) : cut j s <+: cut (j + k) s := by
  induction j generalizing s with
  | zero => exact List.nil_prefix
  | succ j ih =>
    rw [Nat.succ_add, cut, cut]
    split
    · exact List.prefix_refl _
    · exact List.cons_prefix_cons.2 ⟨rfl, ih _⟩

/-- An answer with a string of `n` letters. -/
def answer (n : ℕ) : List UInt8 :=
  ascii "\x7b\"jsonrpc\":\"2.0\",\"id\":1,\"result\":\"".toList ++
    (List.replicate n 97 ++ ascii "\"\x7d".toList)

theorem length_answer (n : ℕ) : (answer n).length = n + 36 := by
  have hstart : (ascii "\x7b\"jsonrpc\":\"2.0\",\"id\":1,\"result\":\"".toList).length = 34 := rfl
  have hend : (ascii "\"\x7d".toList).length = 2 := rfl
  rw [answer, List.length_append, List.length_append, List.length_replicate, hstart, hend]
  omega

theorem zero_notMem_answer (n : ℕ) : 0 ∉ answer n := by
  have hletter : (0 : UInt8) ∉ List.replicate n 97 := fun h =>
    absurd (List.eq_of_mem_replicate h) (by decide)
  simp only [answer, List.mem_append, not_or]
  exact ⟨by decide, hletter, by decide⟩

/-- The answer that is as long as a message may be. -/
def greatest : Message where
  body := answer (lspMaxMessage - 36)
  pos := by rw [length_answer]; omega
  le := by
    have : 36 ≤ lspMaxMessage := by decide
    rw [length_answer]
    omega
  noZero := zero_notMem_answer _

theorem length_greatest : greatest.body.length = lspMaxMessage := by
  have : 36 ≤ lspMaxMessage := by decide
  rw [greatest, length_answer]
  omega

/-- A first read of one byte. -/
def firstByte (body : List UInt8) : Chunk :=
  ⟨(frame body).take 1, by simp [length_frame]; omega,
    (List.length_take_le _ _).trans (by decide)⟩

/-- The greatest message does not arrive in reads of one byte and then of as many as there may be:
when all but a few bytes are there, they are more than the greatest message. -/
theorem Reader.greatest_fails :
    let chunks := firstByte greatest.body ::
      cut (frame greatest.body).length ((frame greatest.body).drop 1)
    (chunks.map (·.bytes)).flatten = (stream [greatest]).flatten ∧
      ¬ ((chunks.foldl readReady Reader.new).dispatched = [greatest.body] ∧
        (chunks.foldl readReady Reader.new).inBuf = [] ∧
        (chunks.foldl readReady Reader.new).dropped = false) := by
  have hlen : (frame greatest.body).length =
      (header lspMaxMessage).length + 4 + lspMaxMessage := by
    rw [length_frame, length_greatest]
  intro chunks
  obtain ⟨k, hk⟩ : ∃ k, (frame greatest.body).length = lspReadChunk + k :=
    have hle : lspReadChunk ≤ lspMaxMessage := by decide
    ⟨_, (Nat.add_sub_cancel' (by rw [hlen]; omega)).symm⟩
  have hbytes : (chunks.map (·.bytes)).flatten = (stream [greatest]).flatten := by
    rw [List.map_cons, List.flatten_cons, flatten_cut, List.take_of_length_le]
    · simp [firstByte, stream, -List.drop_one]
    · rw [List.length_drop]
      exact (Nat.sub_le _ _).trans (Nat.le_mul_of_pos_left _ (by decide))
  refine ⟨hbytes, fun hall => ?_⟩
  have hpart := Framing.Partial.nil (stream_ne_nil [greatest])
  have hread := (readAll_iff (r := Reader.new) rfl rfl hpart (Nat.zero_le _)
    ((List.nil_append _).trans hbytes)).1 hall
    (firstByte greatest.body :: cut lspReadChunk ((frame greatest.body).drop 1))
    (List.cons_prefix_cons.2 ⟨rfl, hk ▸ cut_prefix ..⟩)
  rw [List.map_cons, List.flatten_cons, flatten_cut, List.length_append, List.length_take,
    List.length_drop, hlen] at hread
  have hmany : lspReadChunk * lspReadChunk = lspMaxMessage := by decide
  have hone : (firstByte greatest.body).bytes.length = 1 := by
    rw [firstByte, List.length_take, hlen]
    omega
  have hfew : min lspMaxMessage ((header lspMaxMessage).length + 4 + lspMaxMessage - 1) =
      lspMaxMessage := by omega
  have hshort : ¬ (header lspMaxMessage).length + 4 + lspMaxMessage ≤ 1 + lspMaxMessage := by omega
  simp only [hmany, hone, hfew, stream, List.map_cons, List.map_nil, hlen, Framing.leftover,
    Reader.new, List.length_nil, Nat.zero_add, if_neg hshort] at hread
  omega

end Medit
