import Boole.Library.Instances

/-!
# Library/HexBytes — bytes as pairs of hexadecimal digits

`encodeHex` writes two lower-case digits for each byte; `decodeHex` reads digits of either case.
-/

namespace Library

/-- The value of a hexadecimal digit of either case. -/
def nibble? (c : Char) : Option ℕ :=
  if '0' ≤ c ∧ c ≤ '9' then some (c.toNat - '0'.toNat)
  else if 'a' ≤ c ∧ c ≤ 'f' then some (c.toNat - 'a'.toNat + 10)
  else if 'A' ≤ c ∧ c ≤ 'F' then some (c.toNat - 'A'.toNat + 10)
  else none

def encodeHex (bytes : List UInt8) : String :=
  String.ofList (bytes.flatMap fun b => [Nat.digitChar (b.toNat / 16), Nat.digitChar (b.toNat % 16)])

/-- Pairs of digits; a digit that is left over is an error. -/
def decodePairs : List Char → Option (List UInt8)
  | [] => some []
  | [_] => none
  | hi :: lo :: rest => do
    let h ← nibble? hi
    let l ← nibble? lo
    let bytes ← decodePairs rest
    pure (UInt8.ofNat (16 * h + l) :: bytes)

def decodeHex (s : String) : Option (List UInt8) := decodePairs s.toList

end Library
