import Treeprint.Json.Fault
import Treeprint.Text.Hex

/-!
# Strings

`Quoted.write` puts a text between quotes; quotes, backslashes and controls are escaped and nothing
else.  `Quoted.read` takes every escape there is.  A code point past the first plane is escaped as
two surrogates, and a surrogate that stands alone is malformed.
-/

namespace Treeprint.Json.Quoted

/-! ### Writing -/

/-- A control as four hexadecimal digits. -/
def controlEscape (c : Char) : List Char :=
  '\\' :: 'u' :: '0' :: '0' :: Hex.encodeByte (UInt8.ofNat c.toNat)

def escape (c : Char) : List Char :=
  match c with
  | '"' => ['\\', '"']
  | '\\' => ['\\', '\\']
  | '\x08' => ['\\', 'b']
  | '\x0c' => ['\\', 'f']
  | '\n' => ['\\', 'n']
  | '\r' => ['\\', 'r']
  | '\t' => ['\\', 't']
  | _ => if c.toNat < 0x20 then controlEscape c else [c]

def write (text : String) : List Char := '"' :: text.toList.flatMap escape ++ ['"']

/-! ### Reading -/

/-- What a backslash and one character stand for. -/
def simple? (c : Char) : Option Char :=
  match c with
  | '"' => some '"'
  | '\\' => some '\\'
  | '/' => some '/'
  | 'b' => some '\x08'
  | 'f' => some '\x0c'
  | 'n' => some '\n'
  | 'r' => some '\r'
  | 't' => some '\t'
  | _ => none

/-- The value of four hexadecimal digits. -/
def hex? (a b c d : Char) : Option Nat := do
  return ((← Hex.value? a) * 16 + (← Hex.value? b)) * 256 +
    ((← Hex.value? c) * 16 + (← Hex.value? d))

def isHighSurrogate (n : Nat) : Bool := 0xD800 ≤ n ∧ n ≤ 0xDBFF

def isLowSurrogate (n : Nat) : Bool := 0xDC00 ≤ n ∧ n ≤ 0xDFFF

/-- The character of two surrogates. -/
def paired (high low : Nat) : Char :=
  Char.ofNat (0x10000 + (high - 0xD800) * 0x400 + (low - 0xDC00))

/-- Why fewer than four characters are no four digits: the text ends, unless there are four
    bytes. -/
def shortHex (text : List Char) : Fault :=
  if (text.flatMap String.utf8EncodeChar).length < 4 then .truncated else .malformed

/-- What follows the first quote of a string: its characters, and the text after its last quote. -/
def readChars : Reader (List Char)
  | [] => .error .truncated
  | '"' :: rest => .ok ([], rest)
  | '\\' :: 'u' :: a :: b :: c :: d :: rest =>
    match hex? a b c d with
    | none => .error .malformed
    | some n =>
      if isLowSurrogate n then .error .malformed
      else if isHighSurrogate n then
        match rest with
        | '\\' :: 'u' :: e :: f :: g :: h :: rest =>
          match hex? e f g h with
          | none => .error .malformed
          | some low =>
            if isLowSurrogate low then
              match readChars rest with
              | .error fault => .error fault
              | .ok (chars, rest) => .ok (paired n low :: chars, rest)
            else .error .malformed
        | '\\' :: 'u' :: rest => .error (shortHex rest)
        | ['\\'] | [] => .error .truncated
        | _ => .error .malformed
      else
        match readChars rest with
        | .error fault => .error fault
        | .ok (chars, rest) => .ok (Char.ofNat n :: chars, rest)
  | '\\' :: 'u' :: rest => .error (shortHex rest)
  | '\\' :: c :: rest =>
    match simple? c with
    | none => .error .malformed
    | some char =>
      match readChars rest with
      | .error fault => .error fault
      | .ok (chars, rest) => .ok (char :: chars, rest)
  | ['\\'] => .error .truncated
  | c :: rest =>
    if c.toNat < 0x20 then .error .malformed
    else
      match readChars rest with
      | .error fault => .error fault
      | .ok (chars, rest) => .ok (c :: chars, rest)

/-- What follows the first quote of a string. -/
def read : Reader String := fun text =>
  (readChars text).map (fun result => (String.ofList result.1, result.2))

/-- Pass over what follows the first quote of a string.  Surrogates are not looked at. -/
def skip : List Char → Except Fault (List Char)
  | [] => .error .truncated
  | '"' :: rest => .ok rest
  | '\\' :: 'u' :: a :: b :: c :: d :: rest =>
    if (hex? a b c d).isSome then skip rest else .error .malformed
  | '\\' :: 'u' :: rest => .error (shortHex rest)
  | '\\' :: c :: rest => if (simple? c).isSome then skip rest else .error .malformed
  | ['\\'] => .error .truncated
  | c :: rest => if c.toNat < 0x20 then .error .malformed else skip rest

end Treeprint.Json.Quoted
