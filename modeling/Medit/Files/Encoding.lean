import Medit.Library.CString
import Medit.Library.Unicode

/-!
# Character encodings of files

The conversions of `mooedit-fileops.cpp`. What `g_convert` does is a parameter: the converted bytes
and how many bytes it has read, or nothing if it fails.

## Main definitions

* `encodingNeedsBomLoad`, `encodingNeedsBomSave`, `dataHasBom` — the three tables of byte order marks.
* `mooConvertFileDataToUtf8` — `moo_convert_file_data_to_utf8`.
* `convertToSave` — what `do_save_local` writes.
-/

namespace Medit

open CString

/-- The bytes of the name of an encoding. -/
abbrev EncodingName := List UInt8

/-- `G_BYTE_ORDER` -/
inductive ByteOrder where
  | little
  | big
  deriving DecidableEq, Repr

/-- `g_convert` of some bytes to and from an encoding. -/
abbrev GConvert := List UInt8 → EncodingName → EncodingName → Option (List UInt8 × ℕ)

def nameUtf8 : EncodingName := ascii "UTF-8".toList
def nameUtf16 : EncodingName := ascii "UTF-16".toList
def nameUtf16le : EncodingName := ascii "UTF-16LE".toList
def nameUtf16be : EncodingName := ascii "UTF-16BE".toList
def nameUtf32 : EncodingName := ascii "UTF-32".toList
def nameUtf32le : EncodingName := ascii "UTF-32LE".toList
def nameUtf32be : EncodingName := ascii "UTF-32BE".toList

def nameUtf8Bom : EncodingName := ascii "UTF-8-BOM".toList
def nameUtf16Bom : EncodingName := ascii "UTF-16-BOM".toList
def nameUtf16leBom : EncodingName := ascii "UTF-16LE-BOM".toList
def nameUtf16beBom : EncodingName := ascii "UTF-16BE-BOM".toList
def nameUtf32Bom : EncodingName := ascii "UTF-32-BOM".toList
def nameUtf32leBom : EncodingName := ascii "UTF-32LE-BOM".toList
def nameUtf32beBom : EncodingName := ascii "UTF-32BE-BOM".toList

/-- `encoding_is_utf8` -/
def encodingIsUtf8 (encoding : EncodingName) : Bool :=
  strcaseEq encoding nameUtf8 || strcaseEq encoding (ascii "UTF8".toList)

/-! ## Byte order marks -/

def bomUtf8 : List UInt8 := [0xEF, 0xBB, 0xBF]
def bomUtf16le : List UInt8 := [0xFF, 0xFE]
def bomUtf16be : List UInt8 := [0xFE, 0xFF]
def bomUtf32le : List UInt8 := [0xFF, 0xFE, 0, 0]
def bomUtf32be : List UInt8 := [0, 0, 0xFE, 0xFF]

/-- `BOM_UTF16` -/
def bomUtf16 : ByteOrder → List UInt8
  | .little => bomUtf16le
  | .big => bomUtf16be

/-- `BOM_UTF32` -/
def bomUtf32 : ByteOrder → List UInt8
  | .little => bomUtf32le
  | .big => bomUtf32be

/-- A row of a table: the name of an encoding with its mark, the name without, and the mark. -/
structure BomRow where
  encBom : EncodingName
  encNoBom : EncodingName
  bom : List UInt8
  optional : Bool

/-- The table of `encoding_needs_bom_load`. -/
def loadTable (order : ByteOrder) : List BomRow :=
  [⟨nameUtf8Bom, nameUtf8, bomUtf8, false⟩,
    ⟨nameUtf16, nameUtf16, bomUtf16 order, true⟩,
    ⟨nameUtf16Bom, nameUtf16, bomUtf16 order, false⟩,
    ⟨nameUtf16leBom, nameUtf16le, bomUtf16le, false⟩,
    ⟨nameUtf16beBom, nameUtf16be, bomUtf16be, false⟩,
    ⟨nameUtf32, nameUtf32, bomUtf32 order, true⟩,
    ⟨nameUtf32Bom, nameUtf32, bomUtf32 order, false⟩,
    ⟨nameUtf32leBom, nameUtf32le, bomUtf32le, false⟩,
    ⟨nameUtf32beBom, nameUtf32be, bomUtf32be, false⟩]

/-- The table of `encoding_needs_bom_save`. -/
def saveTable : List BomRow :=
  [⟨nameUtf8Bom, nameUtf8, bomUtf8, false⟩,
    ⟨nameUtf16leBom, nameUtf16le, bomUtf16le, false⟩,
    ⟨nameUtf16beBom, nameUtf16be, bomUtf16be, false⟩,
    ⟨nameUtf32leBom, nameUtf32le, bomUtf32le, false⟩,
    ⟨nameUtf32beBom, nameUtf32be, bomUtf32be, false⟩]

/-- `encoding_needs_bom_load` -/
def encodingNeedsBomLoad (order : ByteOrder) (enc : EncodingName) : Option BomRow :=
  (loadTable order).find? fun row => strcaseEq enc row.encBom

/-- `encoding_needs_bom_save` -/
def encodingNeedsBomSave (enc : EncodingName) : Option BomRow :=
  saveTable.find? fun row => strcaseEq enc row.encBom

/-- The table of `data_has_bom`: names and marks, in the order in which they are tried. -/
def detectTable : ByteOrder → List (EncodingName × List UInt8)
  | .little => [(nameUtf8Bom, bomUtf8), (nameUtf16Bom, bomUtf16le), (nameUtf32Bom, bomUtf32le),
      (nameUtf16beBom, bomUtf16be), (nameUtf32beBom, bomUtf32be)]
  | .big => [(nameUtf8Bom, bomUtf8), (nameUtf16Bom, bomUtf16be), (nameUtf32Bom, bomUtf32be),
      (nameUtf16leBom, bomUtf16le), (nameUtf32leBom, bomUtf32le)]

/-- `data_has_bom` -/
def dataHasBom (order : ByteOrder) (data : List UInt8) : Option EncodingName :=
  ((detectTable order).find? fun row => row.2 <+: data).map Prod.fst

/-! ## Loading -/

/-- `g_utf8_validate` with a length, which does not allow zero bytes. -/
def gUtf8Validate (data : List UInt8) : Bool := (Utf8.decode data).isSome && !data.contains 0

/-- The bytes of a C string that is at the start of some bytes. -/
def gStrdup (data : List UInt8) : List UInt8 := data.takeWhile (· ≠ 0)

/-- `try_convert_to_utf8_from_utf8` -/
def tryConvertToUtf8FromUtf8 (data : List UInt8) : Option (List UInt8) :=
  let data := if bomUtf8 <+: data then data.drop bomUtf8.length else data
  -- a zero byte at the end is allowed
  if gUtf8Validate data || (data.getLast? == some 0 && gUtf8Validate data.dropLast) then
    some (gStrdup data)
  else none

section Convert

variable (order : ByteOrder) (gConvert : GConvert)

/-- The part of `try_convert_to_utf8_from_non_utf8_encoding` behind the byte order mark. -/
def convertWithoutBom (data : List UInt8) (enc : EncodingName) : Option (List UInt8) :=
  if encodingIsUtf8 enc then tryConvertToUtf8FromUtf8 data
  else
    match gConvert data nameUtf8 enc with
    | none => none
    | some (result, bytesRead) =>
      let resultLen := (gStrdup result).length
      -- a zero at the end is ignored
      let bytesWritten := if result.length = resultLen + 1 then result.length - 1 else result.length
      if bytesRead < data.length ∨ resultLen < bytesWritten then none else some (gStrdup result)

/-- `try_convert_to_utf8_from_non_utf8_encoding` -/
def tryConvertToUtf8FromNonUtf8Encoding (data : List UInt8) (enc : EncodingName) :
    Option (List UInt8) :=
  match encodingNeedsBomLoad order enc with
  | none => convertWithoutBom gConvert data enc
  | some row =>
    if row.bom <+: data then
      convertWithoutBom gConvert (data.drop row.bom.length) row.encNoBom
    else if row.optional then convertWithoutBom gConvert data enc
    else none

/-- `try_convert_to_utf8_from_encoding` -/
def tryConvertToUtf8FromEncoding (data : List UInt8) (enc : EncodingName) : Option (List UInt8) :=
  if encodingIsUtf8 enc then tryConvertToUtf8FromUtf8 data
  else tryConvertToUtf8FromNonUtf8Encoding order gConvert data enc

/-- `moo_convert_file_data_to_utf8`: the text and `*used_enc`. What `get_encodings` takes from the
preferences is `encodings`. -/
def mooConvertFileDataToUtf8 (encodings : List EncodingName) (data : List UInt8)
    (encoding cachedEncoding : Option EncodingName) : Option (List UInt8) × Option EncodingName :=
  match encoding, dataHasBom order data with
  | some enc, _ =>
    match tryConvertToUtf8FromEncoding order gConvert data enc with
    | some result => (some result, some enc)
    | none => (none, none)
  | none, some bomEnc => (tryConvertToUtf8FromEncoding order gConvert data bomEnc, some bomEnc)
  | none, none =>
    match (cachedEncoding.toList ++ encodings).find? fun enc =>
        (tryConvertToUtf8FromEncoding order gConvert data enc).isSome with
    | some enc => (tryConvertToUtf8FromEncoding order gConvert data enc, some enc)
    | none => (none, none)

/-! ## Saving -/

/-- The conversion of `do_save_local`: the mark and the bytes to be written. -/
def convertToSave (encoding : EncodingName) (utf8Contents : List UInt8) :
    Option (List UInt8 × List UInt8) :=
  let (encoding, bom) := match encodingNeedsBomSave encoding with
    | some row => (row.encNoBom, row.bom)
    | none => (encoding, [])
  if encodingIsUtf8 encoding then some (bom, utf8Contents)
  else (gConvert utf8Contents encoding nameUtf8).map fun converted => (bom, converted.1)

end Convert

end Medit
