import Mathlib.Data.List.Basic

/-!
# Equality of strings

The comparison of strings, which decides whether one is in a list of them, is lawful.
-/

instance lawfulBEq_bytes : LawfulBEq (List UInt8) := inferInstance

instance lawfulBEq_chars : LawfulBEq (List Char) := inferInstance
