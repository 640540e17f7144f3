import Medit.Library.CString
import Medit.Library.Framing

/-!
# Messages on the wire

How `lsp-client.cpp` frames the messages it sends, and how it finds the messages in what a server
has written.

## Main definitions

* `frame` — a body with its header, as `send_message` writes it.
* `findMessage` — `_lsp_client_find_message`.
* `Reader`, `processInBuf`, `readReady` — the input buffer of a client.
* `Message`, `Chunk` — bodies that may be sent, and what one read may bring.
-/

namespace Medit

open CString

/-- `LSP_READ_CHUNK` -/
def lspReadChunk : ℕ := 8192

/-- `LSP_MAX_MESSAGE` -/
def lspMaxMessage : ℕ := 64 * 1024 * 1024

/-! ## Frames -/

def lengthField : List UInt8 := ascii "Content-Length".toList

/-- The bytes of `"\r\n\r\n"`. -/
def blankLine : List UInt8 := [13, 10, 13, 10]

/-- The header line of a body of `n` bytes. -/
def header (n : ℕ) : List UInt8 := lengthField ++ 58 :: 32 :: decimal n

/-- The frame that `send_message` puts around a body. -/
def frame (body : List UInt8) : List UInt8 := header body.length ++ (blankLine ++ body)

/-! ## Finding a message -/

/-- What `_lsp_client_find_message` returns: zero, a negative number, or a length with the offset
and the length of the body. -/
inductive Found where
  | incomplete
  | unusable
  | message (bodyOffset bodyLen : ℕ)
  deriving DecidableEq, Repr

/-- The ends of a header that are accepted, the second one for test harnesses. -/
def terminators : List (List UInt8) := [blankLine, [10, 10]]

/-- `header_end` and `header_len`: the first terminator, and what follows it. -/
def headerEnd (data : List UInt8) : Option (ℕ × ℕ) :=
  terminators.foldl (fun best terminator =>
    match strstrLen terminator data, best with
    | none, _ => best
    | some found, none => some (found, found + terminator.length)
    | some found, some (headerEnd, headerLen) =>
      if found < headerEnd then some (found, found + terminator.length)
      else some (headerEnd, headerLen)) none

/-- The `Content-Length` value of one header line, none if the line is about something else, and
an error if the value is not a number. -/
def lineLength (line : List UInt8) : Except Unit (Option ℕ) :=
  match line.dropWhile (· != 58) with
  | [] => .ok none
  | _ :: rest =>
    if strcaseEq (line.takeWhile (· != 58)) lengthField then
      let value := strip rest
      if value.head? = some 45 ∨ value.head? = some 43 then .error ()
      else
        match strtoull value with
        | some (n, []) => .ok (some n)
        | _ => .error ()
    else .ok none

/-- The lengths that the header lines give, of which there must be one at most. -/
def contentLength : Option ℕ → List (List UInt8) → Except Unit (Option ℕ)
  | have_, [] => .ok have_
  | have_, line :: lines =>
    match lineLength line with
    | .error () => .error ()
    | .ok none => contentLength have_ lines
    | .ok (some n) => if have_.isSome then .error () else contentLength (some n) lines

/-- `_lsp_client_find_message` -/
def findMessage (data : List UInt8) : Found :=
  match headerEnd data with
  | none => .incomplete
  | some (headerEnd, headerLen) =>
    match contentLength none (splitSet (fun c => c == 13 || c == 10) (strndup data headerEnd)) with
    | .error () => .unusable
    | .ok none => .unusable
    | .ok (some n) =>
      if n > lspMaxMessage then .unusable
      else if data.length < headerLen + n then .incomplete
      else .message headerLen n

/-! ## The input buffer -/

/-- What reading is about in a client: the bytes that have come in, the bodies handed to
`dispatch_message`, and whether the server has been killed for what it sent. -/
structure Reader where
  inBuf : List UInt8
  disconnected : Bool
  dispatched : List (List UInt8)
  dropped : Bool
  deriving DecidableEq, Repr

def Reader.new : Reader := ⟨[], false, [], false⟩

/-- `process_in_buf`; each message takes its header off the buffer, so that there are no more of
them than bytes. -/
def processInBuf : ℕ → Reader → Reader
  | 0, r => r
  | fuel + 1, r =>
    if r.disconnected ∨ r.inBuf = [] then r
    else
      match findMessage r.inBuf with
      | .incomplete => if r.inBuf.length > lspMaxMessage then { r with dropped := true } else r
      | .unusable => { r with dropped := true, inBuf := [] }
      | .message bodyOffset bodyLen =>
        processInBuf fuel { r with
          inBuf := r.inBuf.drop (bodyOffset + bodyLen)
          dispatched := r.dispatched ++ [strndup (r.inBuf.drop bodyOffset) bodyLen] }

/-- What one read of `start_read` brings. -/
structure Chunk where
  bytes : List UInt8
  pos : 1 ≤ bytes.length
  le : bytes.length ≤ lspReadChunk

/-- `read_ready` with some bytes read. -/
def readReady (r : Reader) (chunk : Chunk) : Reader :=
  let r := { r with inBuf := r.inBuf ++ chunk.bytes }
  processInBuf (r.inBuf.length + 1) r

/-- A serialised message: text of a length within the limit, without a zero byte. -/
structure Message where
  body : List UInt8
  pos : 1 ≤ body.length
  le : body.length ≤ lspMaxMessage
  noZero : 0 ∉ body

end Medit
