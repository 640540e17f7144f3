import Mathlib.Data.List.Basic

/-!
# UTF-8 texts

A text as characters and as the bytes a C string holds. Only the character zero has a
zero byte, so a text without it is not cut short by a function that stops at one.
-/

namespace Utf8

/-- The bytes of a text. -/
def encode (cs : List Char) : List UInt8 := cs.flatMap String.utf8EncodeChar

/-- The text of valid bytes. -/
def decode (bs : List UInt8) : Option (List Char) := bs.toByteArray.utf8Decode?.map Array.toList

@[simp] theorem encode_nil : encode [] = [] := rfl

@[simp] theorem encode_append (cs ds : List Char) : encode (cs ++ ds) = encode cs ++ encode ds :=
  List.flatMap_append

@[simp] theorem decode_encode (cs : List Char) : decode (encode cs) = some cs := by
  have h : (encode cs).toByteArray = cs.utf8Encode := rfl
  simp [decode, h]

theorem encode_of_decode {bs : List UInt8} {cs : List Char} (h : decode bs = some cs) :
    encode cs = bs := by
  obtain ⟨a, ha, rfl⟩ := Option.map_eq_some_iff.1 h
  have hsome : bs.toByteArray.utf8Decode?.isSome := by simp [ha]
  have hget := ByteArray.utf8Encode_get_utf8Decode? (b := bs.toByteArray) (h := hsome)
  simp only [ha, Option.get_some] at hget
  have hbytes : (encode a.toList).toByteArray = bs.toByteArray := hget
  simpa using congrArg (fun b : ByteArray => b.data.toList) hbytes

theorem encode_eq_nil {cs : List Char} : encode cs = [] ↔ cs = [] := by
  refine ⟨fun h => ?_, by rintro rfl; rfl⟩
  have := decode_encode cs
  rw [h] at this
  simpa using (this.symm.trans (decode_encode []))

theorem eq_zero_of_mem_utf8EncodeChar {c : Char} (h : 0 ∈ String.utf8EncodeChar c) :
    c = '\x00' := by
  have hval : c.val.toNat = 0 := by
    by_contra hc
    have hnat : c.toNat = c.val.toNat := rfl
    simp only [String.utf8EncodeChar] at h
    split_ifs at h <;> simp [← UInt8.toNat_inj] at h <;> omega
  exact Char.ext (UInt32.toNat_inj.1 hval)

theorem zero_notMem_encode {cs : List Char} (h : '\x00' ∉ cs) : 0 ∉ encode cs := by
  intro hmem
  obtain ⟨c, hc, hz⟩ := List.mem_flatMap.1 hmem
  exact h (eq_zero_of_mem_utf8EncodeChar hz ▸ hc)

end Utf8
