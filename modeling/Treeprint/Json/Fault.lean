import Treeprint.Text.Characters

/-!
# Why a JSON text is not read

Three causes are told apart: the text is malformed, it ends too early, or it is well formed as far
as it was read but does not fit what is wanted.  A misfit says what was found and what was wanted.
-/

namespace Treeprint.Json

/-- What was found in place of what is wanted. -/
inductive Found
  | null
  | boolean (value : Bool)
  | integer (value : Int)
  /-- A number with a fraction or an exponent, or one that is too long, as it is written out. -/
  | real (digits : List Char)
  | string (content : String)
  | sequence
  | map
  /-- The name of a variant without a content. -/
  | bareVariant
  deriving DecidableEq, Repr

namespace Found

private def ticked (word : String) : String := "\x60" ++ word ++ "\x60"

def message : Found → String
  | null => "null"
  | boolean value => "boolean " ++ ticked (if value then "true" else "false")
  | integer value => "integer " ++ ticked (toString value)
  | real digits => "floating point " ++ ticked (String.ofList digits)
  | string content => "string " ++ Text.quote content
  | sequence => "sequence"
  | map => "map"
  | bareVariant => "unit variant"

end Found

/-- How a well-formed text does not fit. -/
inductive Misfit
  | type (found : Found) (wanted : String)
  | value (found : Found) (wanted : String)
  | length (count : Nat) (wanted : String)
  | missingField (name : String)
  | duplicateField (name : String)
  | unknownVariant (name : String) (known : List String)
  deriving DecidableEq, Repr

namespace Misfit

/-- Names as a choice: two are joined by a word, more are listed. -/
def choice (names : List String) : String :=
  match names.map (fun name => "\x60" ++ name ++ "\x60") with
  | [first, second] => first ++ " or " ++ second
  | names => "one of " ++ ", ".intercalate names

def message : Misfit → String
  | type found wanted => "invalid type: " ++ found.message ++ ", expected " ++ wanted
  | value found wanted => "invalid value: " ++ found.message ++ ", expected " ++ wanted
  | length count wanted => "invalid length " ++ toString count ++ ", expected " ++ wanted
  | missingField name => "missing field \x60" ++ name ++ "\x60"
  | duplicateField name => "duplicate field \x60" ++ name ++ "\x60"
  | unknownVariant name known =>
    "unknown variant \x60" ++ name ++ "\x60, expected " ++ choice known

end Misfit

inductive Fault
  | malformed
  | truncated
  | misfit (misfit : Misfit)
  deriving DecidableEq, Repr

/-- Reads a value off the front of a text; the rest of the text comes with it. -/
abbrev Reader (α : Type) := List Char → Except Fault (α × List Char)

end Treeprint.Json
