import Mathlib

/-!
# Texts

A text is a list of bytes, as a Go string is.
-/

namespace Dbtrail

abbrev Bytes : Type := List UInt8

/-- The bytes of a text. -/
def utf8 (s : String) : Bytes := s.toList.flatMap String.utf8EncodeChar

/-- `strings.ReplaceAll` of a single byte. -/
def replaceAll (old : UInt8) (new s : Bytes) : Bytes :=
  s.flatMap fun b => if b = old then new else [b]

namespace SQL

def isDigit (b : UInt8) : Bool := decide (48 ≤ b) && decide (b ≤ 57)

/-- `strings.Join`. -/
def join {α : Type} (sep : List α) : List (List α) → List α
  | [] => []
  | [x] => x
  | x :: y :: rest => x ++ sep ++ join sep (y :: rest)

end SQL

end Dbtrail
