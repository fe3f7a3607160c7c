/-!
# Text and bytes

File names are bytes; what is stored and shown is text.  `Utf8.encode` turns text into its UTF-8
bytes, `Utf8.decode` turns any bytes into text.  Decoding is total: every longest start of a
character that the following byte breaks off is shown as one replacement character, and a byte that
begins no character as another.

The decoder is a transducer with one step per byte.  Its state says what the next byte may be, so
reading can be cut at any byte: what follows depends on the state alone.
-/

namespace Treeprint

/-- A string of bytes: a file name, a path, the contents of a file. -/
abbrev Bytes := List UInt8

namespace Utf8

def encode (text : String) : Bytes := text.toList.flatMap String.utf8EncodeChar

/-- Shown in place of bytes that are no character. -/
def replacement : Char := '\uFFFD'

/-- Where the decoder stands: between two characters, or inside one.  Inside, `value` holds the
    bits read so far, `more` bytes are due after the next one, and the next one has to lie between
    `low` and `high`. -/
inductive Stage
  | between
  | inside (value more : Nat) (low high : UInt8)
  deriving DecidableEq, Repr

/-- A byte read between two characters.  The bounds on the second byte rule out overlong forms,
    surrogates and values past the last code point. -/
def opening (b : UInt8) : List Char × Stage :=
  if b < 0x80 then ([Char.ofNat b.toNat], .between)
  else if b < 0xC2 then ([replacement], .between)
  else if b < 0xE0 then ([], .inside (b.toNat - 0xC0) 0 0x80 0xBF)
  else if b = 0xE0 then ([], .inside 0 1 0xA0 0xBF)
  else if b = 0xED then ([], .inside 0xD 1 0x80 0x9F)
  else if b < 0xF0 then ([], .inside (b.toNat - 0xE0) 1 0x80 0xBF)
  else if b = 0xF0 then ([], .inside 0 2 0x90 0xBF)
  else if b < 0xF4 then ([], .inside (b.toNat - 0xF0) 2 0x80 0xBF)
  else if b = 0xF4 then ([], .inside 4 2 0x80 0x8F)
  else ([replacement], .between)

/-- One byte: the characters it completes, and the stage after it. -/
def step : Stage → UInt8 → List Char × Stage
  | .between, b => opening b
  | .inside value more low high, b =>
    if low ≤ b ∧ b ≤ high then
      let value := value * 64 + (b.toNat - 0x80)
      match more with
      | 0 => ([Char.ofNat value], .between)
      | more + 1 => ([], .inside value more 0x80 0xBF)
    else (replacement :: (opening b).1, (opening b).2)

/-- What remains to be shown when the bytes end at a stage. -/
def finish : Stage → List Char
  | .between => []
  | .inside .. => [replacement]

/-- The characters of bytes that are read from a stage on. -/
def decodeFrom : Stage → Bytes → List Char
  | stage, [] => finish stage
  | stage, b :: rest => (step stage b).1 ++ decodeFrom (step stage b).2 rest

def decode (bytes : Bytes) : String := String.ofList (decodeFrom .between bytes)

end Utf8

end Treeprint
