import Medit.Files.Encoding

/-!
# Files with a byte order mark

A text that is saved in an encoding with a byte order mark, loaded again, and saved again.

## Main definitions

* `BomEncoding` — the encodings that are saved with a mark.
* `ExactCodec` — what is expected of `g_convert`.
* `RoundTrips` — loading what was saved, and saving it again.

## Main results

* `round_trips_iff` — the encodings for which this works.
-/

namespace Medit

open CString Unicode

/-- The encodings of `encoding_needs_bom_save`. -/
inductive BomEncoding where
  | utf8
  | utf16le
  | utf16be
  | utf32le
  | utf32be
  deriving DecidableEq, Repr

namespace BomEncoding

def name : BomEncoding → EncodingName
  | utf8 => nameUtf8Bom
  | utf16le => nameUtf16leBom
  | utf16be => nameUtf16beBom
  | utf32le => nameUtf32leBom
  | utf32be => nameUtf32beBom

def nameNoBom : BomEncoding → EncodingName
  | utf8 => nameUtf8
  | utf16le => nameUtf16le
  | utf16be => nameUtf16be
  | utf32le => nameUtf32le
  | utf32be => nameUtf32be

def bom : BomEncoding → List UInt8
  | utf8 => bomUtf8
  | utf16le => bomUtf16le
  | utf16be => bomUtf16be
  | utf32le => bomUtf32le
  | utf32be => bomUtf32be

def form : BomEncoding → Form
  | utf8 => .utf8
  | utf16le => .utf16 false
  | utf16be => .utf16 true
  | utf32le => .utf32 false
  | utf32be => .utf32 true

end BomEncoding

/-- `g_convert` converts exactly between UTF-8 and the other forms, and does not know the names that
medit has for an encoding with a mark. -/
structure ExactCodec (gConvert : GConvert) : Prop where
  encode : ∀ enc : BomEncoding, enc ≠ .utf8 → ∀ cs,
    (gConvert (Utf8.encode cs) enc.nameNoBom nameUtf8).map Prod.fst = some (enc.form.encode cs)
  decode : ∀ enc : BomEncoding, enc ≠ .utf8 → ∀ cs,
    gConvert (enc.form.encode cs) nameUtf8 enc.nameNoBom =
      some (Utf8.encode cs, (enc.form.encode cs).length)
  unknown : ∀ data source, gConvert data nameUtf16Bom source = none ∧
    gConvert data nameUtf32Bom source = none

/-- The file that is saved for a text. -/
def savedBytes (gConvert : GConvert) (encoding : EncodingName) (cs : List Char) :
    Option (List UInt8) :=
  (convertToSave gConvert encoding (Utf8.encode cs)).map fun saved => saved.1 ++ saved.2

/-- A text is saved, and loaded again from its file with no encoding given; saved again in the
encoding that was found it gives the same file. -/
def RoundTrips (order : ByteOrder) (gConvert : GConvert) (encodings : List EncodingName)
    (cached : Option EncodingName) (encoding : EncodingName) (cs : List Char) : Prop :=
  ∃ bytes used, savedBytes gConvert encoding cs = some bytes ∧
    mooConvertFileDataToUtf8 order gConvert encodings bytes none cached =
      (some (Utf8.encode cs), some used) ∧
    savedBytes gConvert used cs = some bytes

/-- The encodings whose mark is found, and found as the mark of an encoding that can be saved. -/
def Detected : ByteOrder → BomEncoding → Prop
  | .little, enc => enc = .utf8 ∨ enc = .utf16be ∨ enc = .utf32be
  | .big, enc => enc = .utf8 ∨ enc = .utf16le

variable {order : ByteOrder} {gConvert : GConvert} {enc : BomEncoding} {cs : List Char}

/-! ## Saving -/

theorem savedBytes_name (h : ExactCodec gConvert) (enc : BomEncoding) (cs : List Char) :
    savedBytes gConvert enc.name cs = some (enc.bom ++ enc.form.encode cs) := by
  have hrow : encodingNeedsBomSave enc.name = some ⟨enc.name, enc.nameNoBom, enc.bom, false⟩ := by
    cases enc <;> rfl
  have hutf8 : encodingIsUtf8 enc.nameNoBom = decide (enc = .utf8) := by
    cases enc <;> rfl
  by_cases henc : enc = .utf8
  · subst henc
    simp [savedBytes, convertToSave, hrow, hutf8, BomEncoding.form, Form.encode]
  · have hencode := h.encode enc henc cs
    simp only [savedBytes, convertToSave, hrow, hutf8, henc, decide_false, Bool.false_eq_true,
      if_false, Option.map_map]
    obtain ⟨r, hr, hrs⟩ := Option.map_eq_some_iff.1 hencode
    simp [hr, hrs]

/-- The names without a byte order are not known when a file is saved. -/
theorem savedBytes_unknown (h : ExactCodec gConvert) (cs : List Char) :
    savedBytes gConvert nameUtf16Bom cs = none ∧ savedBytes gConvert nameUtf32Bom cs = none := by
  obtain ⟨h16, h32⟩ := h.unknown (Utf8.encode cs) nameUtf8
  have hrow16 : encodingNeedsBomSave nameUtf16Bom = none := rfl
  have hrow32 : encodingNeedsBomSave nameUtf32Bom = none := rfl
  have hutf16 : encodingIsUtf8 nameUtf16Bom = false := rfl
  have hutf32 : encodingIsUtf8 nameUtf32Bom = false := rfl
  simp [savedBytes, convertToSave, hrow16, hrow32, hutf16, hutf32, h16, h32]

/-! ## Loading -/

/-- The name that is found for the mark of an encoding. -/
def detectedName : ByteOrder → BomEncoding → EncodingName
  | _, .utf8 => nameUtf8Bom
  | .little, .utf16le => nameUtf16Bom
  | .little, .utf32le => nameUtf16Bom
  | .little, .utf16be => nameUtf16beBom
  | .little, .utf32be => nameUtf32beBom
  | .big, .utf16be => nameUtf16Bom
  | .big, .utf32be => nameUtf32Bom
  | .big, .utf16le => nameUtf16leBom
  -- the mark of UTF-16 is the start of the one of UTF-32
  | .big, .utf32le => nameUtf16leBom

theorem dataHasBom_bom (order : ByteOrder) (enc : BomEncoding) (data : List UInt8) :
    dataHasBom order (enc.bom ++ data) = some (detectedName order enc) := by
  cases order <;> cases enc <;>
    simp [dataHasBom, detectTable, BomEncoding.bom, bomUtf8, bomUtf16le, bomUtf16be, bomUtf32le,
      bomUtf32be, detectedName]

theorem detectedName_of_detected (h : Detected order enc) : detectedName order enc = enc.name := by
  cases order <;> cases enc <;> simp_all [Detected, detectedName, BomEncoding.name]

theorem gStrdup_encode (hnul : '\x00' ∉ cs) : gStrdup (Utf8.encode cs) = Utf8.encode cs := by
  have hzero := Utf8.zero_notMem_encode hnul
  refine List.takeWhile_eq_self_iff.2 fun b hb => ?_
  simpa using fun h : b = 0 => hzero (h ▸ hb)

/-- Only U+FEFF looks like the mark of UTF-8. -/
theorem not_bomUtf8_prefix (h : cs.head? ≠ some '\uFEFF') : ¬ bomUtf8 <+: Utf8.encode cs := by
  cases cs with
  | nil => simp [bomUtf8]
  | cons c cs =>
    intro hpre
    refine h (congrArg some ?_)
    have hval : c.val.toNat = 0xFEFF := by
      have hpre : bomUtf8 <+: String.utf8EncodeChar c ++ Utf8.encode cs := hpre
      have hnat : c.toNat = c.val.toNat := rfl
      simp only [String.utf8EncodeChar, bomUtf8] at hpre
      split_ifs at hpre <;> simp [← UInt8.toNat_inj] at hpre <;> omega
    exact Char.ext (UInt32.toNat_inj.1 hval)

/-- A valid text is read as it is. -/
theorem tryConvertToUtf8FromUtf8_encode (hnul : '\x00' ∉ cs) (h : cs.head? ≠ some '\uFEFF') :
    tryConvertToUtf8FromUtf8 (Utf8.encode cs) = some (Utf8.encode cs) := by
  have hvalid : gUtf8Validate (Utf8.encode cs) = true := by
    simp [gUtf8Validate, Utf8.zero_notMem_encode hnul]
  simp [tryConvertToUtf8FromUtf8, not_bomUtf8_prefix h, hvalid, gStrdup_encode hnul]

/-- A file with a mark, read as what it is. -/
theorem tryConvertToUtf8FromEncoding_bom (h : ExactCodec gConvert) (hnul : '\x00' ∉ cs)
    (hfeff : cs.head? ≠ some '\uFEFF') :
    tryConvertToUtf8FromEncoding order gConvert (enc.bom ++ enc.form.encode cs) enc.name =
      some (Utf8.encode cs) := by
  have hrow : encodingNeedsBomLoad order enc.name =
      some ⟨enc.name, enc.nameNoBom, enc.bom, false⟩ := by
    cases enc <;> rfl
  have hname : encodingIsUtf8 enc.name = false := by cases enc <;> rfl
  have hutf8 : encodingIsUtf8 enc.nameNoBom = decide (enc = .utf8) := by cases enc <;> rfl
  simp only [tryConvertToUtf8FromEncoding, hname, Bool.false_eq_true, if_false,
    tryConvertToUtf8FromNonUtf8Encoding, hrow, List.prefix_append, if_true, List.drop_left,
    convertWithoutBom, hutf8, decide_eq_true_eq]
  split
  · next henc =>
    subst henc
    exact tryConvertToUtf8FromUtf8_encode hnul hfeff
  · next henc =>
    have hdup := gStrdup_encode hnul
    simp [h.decode enc henc cs, hdup]

/-! ## Both -/

/-- The units of a text in UTF-16 do not begin with a zero. -/
theorem utf16_ne_zero (hnul : '\x00' ∉ cs) (data : List UInt8) :
    (Form.utf16 false).encode cs ≠ 0 :: 0 :: data := by
  intro h
  have hdecode := (Form.utf16 false).decode_encode cs
  have hchar : charOf (unit16 false 0 0) = some '\x00' := rfl
  have hunit : ¬ (0xD800 ≤ unit16 false 0 0 ∧ unit16 false 0 0 < 0xDC00) := by decide
  rw [h, Form.decode, decode16.eq_def] at hdecode
  simp only [hunit, if_false, hchar, Option.bind_eq_bind, Option.bind_some] at hdecode
  obtain ⟨chars, -, hcs⟩ := Option.bind_eq_some_iff.1 hdecode
  obtain rfl := Option.some.inj hcs
  exact hnul (by simp)

/-- A text without zeros that does not begin with a mark comes back from a file with a mark, and the
same file is saved again, in just the encodings that are detected. -/
theorem round_trips_iff (order : ByteOrder) (gConvert : GConvert) (h : ExactCodec gConvert)
    (encodings : List EncodingName) (cached : Option EncodingName) (enc : BomEncoding)
    (cs : List Char) (hnul : '\x00' ∉ cs) (hfeff : cs.head? ≠ some '\uFEFF') :
    RoundTrips order gConvert encodings cached enc.name cs ↔ Detected order enc := by
  have hload : mooConvertFileDataToUtf8 order gConvert encodings (enc.bom ++ enc.form.encode cs) none
      cached = (tryConvertToUtf8FromEncoding order gConvert (enc.bom ++ enc.form.encode cs)
        (detectedName order enc), some (detectedName order enc)) := by
    simp only [mooConvertFileDataToUtf8, dataHasBom_bom]
  constructor
  · rintro ⟨bytes, used, hsaved, hloaded, hagain⟩
    rw [savedBytes_name h] at hsaved
    obtain rfl := Option.some.inj hsaved
    rw [hload] at hloaded
    obtain rfl : detectedName order enc = used := Option.some.inj (congrArg Prod.snd hloaded)
    obtain ⟨hsave16, hsave32⟩ := savedBytes_unknown h cs
    have hutf16le := savedBytes_name h .utf16le cs
    cases order <;> cases enc <;> simp only [Detected, reduceCtorEq, or_false, or_true, or_self] <;>
      simp only [detectedName] at hagain
    · simp [hsave16] at hagain
    · simp [hsave16] at hagain
    · simp [hsave16] at hagain
    · rw [show nameUtf16leBom = BomEncoding.utf16le.name from rfl, hutf16le] at hagain
      exact utf16_ne_zero hnul _ (List.append_cancel_left (Option.some.inj hagain))
    · simp [hsave32] at hagain
  · intro hdetected
    have hname := detectedName_of_detected hdetected
    refine ⟨_, enc.name, savedBytes_name h enc cs, ?_, savedBytes_name h enc cs⟩
    rw [hload, hname, tryConvertToUtf8FromEncoding_bom h hnul hfeff]

/-! ## A converter -/

/-- The forms of the names that have a byte order. -/
def formOf (name : EncodingName) : Option Form :=
  (([.utf8, .utf16le, .utf16be, .utf32le, .utf32be] : List BomEncoding).find? fun enc =>
    name = enc.nameNoBom).map BomEncoding.form

/-- What `iconv` takes bytes for; UTF-16 is in the byte order of its mark, or else of the host. -/
def iconvDecode (name : EncodingName) (data : List UInt8) : Option (List Char) :=
  if name = nameUtf16 then
    if bomUtf16le <+: data then decode16 false (data.drop 2)
    else if bomUtf16be <+: data then decode16 true (data.drop 2)
    else decode16 false data
  else (formOf name).bind fun form => form.decode data

/-- `g_convert` on a little-endian host. -/
def iconv : GConvert := fun data target source =>
  (formOf target).bind fun form =>
    (iconvDecode source data).map fun cs => (form.encode cs, data.length)

theorem exactCodec_iconv : ExactCodec iconv where
  encode enc henc cs := by
    have hform : formOf enc.nameNoBom = some enc.form := by cases enc <;> rfl
    have hdecode : iconvDecode nameUtf8 (Utf8.encode cs) = some cs := by
      have hutf8 : formOf nameUtf8 = some .utf8 := rfl
      have hne : nameUtf8 ≠ nameUtf16 := by decide
      simp [iconvDecode, hne, hutf8, Form.decode]
    simp [iconv, hform, hdecode]
  decode enc henc cs := by
    have hform : formOf enc.nameNoBom = some enc.form := by cases enc <;> rfl
    have hutf8 : formOf nameUtf8 = some .utf8 := rfl
    have hne : enc.nameNoBom ≠ nameUtf16 := by cases enc <;> decide
    have hencode : Form.utf8.encode cs = Utf8.encode cs := rfl
    simp [iconv, iconvDecode, hne, hform, hutf8, Form.decode_encode, hencode]
  unknown data source := ⟨rfl, rfl⟩

/-- A letter in UTF-16 with the most significant byte first. -/
theorem round_trips_utf16be : RoundTrips .little iconv [nameUtf8] none nameUtf16beBom ['a'] :=
  (round_trips_iff .little iconv exactCodec_iconv [nameUtf8] none .utf16be ['a'] (by decide)
    (by decide)).2 (.inr (.inl rfl))

/-- A letter in UTF-16 with the least significant byte first is loaded, but the encoding that is
reported for it cannot be saved. -/
theorem round_trips_not_utf16le :
    savedBytes iconv nameUtf16leBom ['a'] = some [0xFF, 0xFE, 0x61, 0] ∧
      mooConvertFileDataToUtf8 .little iconv [nameUtf8] [0xFF, 0xFE, 0x61, 0] none none =
        (some [0x61], some nameUtf16Bom) ∧
      savedBytes iconv nameUtf16Bom ['a'] = none := by
  refine ⟨rfl, ?_, rfl⟩
  decide

end Medit
