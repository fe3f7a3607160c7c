import Treeprint.Text.Utf8

/-!
# Bytes in hexadecimal

Two lower-case digits a byte.  Reading takes digits of either case and refuses an odd count.
-/

namespace Treeprint.Hex

def digit (n : Nat) : Char := if n < 10 then Char.ofNat (48 + n) else Char.ofNat (87 + n)

def value? (c : Char) : Option Nat :=
  if '0' ≤ c ∧ c ≤ '9' then some (c.toNat - 48)
  else if 'a' ≤ c ∧ c ≤ 'f' then some (c.toNat - 87)
  else if 'A' ≤ c ∧ c ≤ 'F' then some (c.toNat - 55)
  else none

def encodeByte (b : UInt8) : List Char := [digit (b.toNat / 16), digit (b.toNat % 16)]

def encode (bytes : Bytes) : String := String.ofList (bytes.flatMap encodeByte)

/-- The bytes that pairs of digits spell. -/
def decodeChars : List Char → Option Bytes
  | [] => some []
  | [_] => none
  | high :: low :: rest => do
    let h ← value? high
    let l ← value? low
    let bytes ← decodeChars rest
    return UInt8.ofNat (h * 16 + l) :: bytes

def decode? (text : String) : Option Bytes := decodeChars text.toList

/-- A number in hexadecimal without leading zeros, at least one digit. -/
def ofNat (n : Nat) : List Char := (Nat.toDigits 16 n)

end Treeprint.Hex
