import Treeprint.Json.Number
import Treeprint.Json.Quoted

/-!
# Blanks, words, and passing over a value

Between any two parts of a text there may be blanks.  `skipValue` passes over one value whatever it
is.  It is a loop with the brackets that are open, and each round takes at least one character.
-/

namespace Treeprint.Json

def isBlank (c : Char) : Bool := c = ' ' ∨ c = '\n' ∨ c = '\t' ∨ c = '\r'

def skipBlanks (text : List Char) : List Char := text.dropWhile isBlank

/-- Pass over the letters of a word. -/
def word : (letters : List Char) → List Char → Except Fault (List Char)
  | [], text => .ok text
  | _ :: _, [] => .error .truncated
  | letter :: letters, c :: text => if c = letter then word letters text else .error .malformed

def colon (text : List Char) : Except Fault (List Char) :=
  match skipBlanks text with
  | ':' :: rest => .ok rest
  | [] => .error .truncated
  | _ => .error .malformed

inductive Bracket
  | sequence
  | map
  deriving DecidableEq, Repr

def skipKey (text : List Char) : Except Fault (List Char) :=
  match skipBlanks text with
  | '"' :: rest =>
    match Quoted.skip rest with
    | .error fault => .error fault
    | .ok rest => colon rest
  | [] => .error .truncated
  | _ => .error .malformed

/-- Pass over a value that is no sequence and no map. -/
def skipScalar (text : List Char) : Except Fault (List Char) :=
  match text with
  | [] => .error .truncated
  | 'n' :: rest => word ['u', 'l', 'l'] rest
  | 't' :: rest => word ['r', 'u', 'e'] rest
  | 'f' :: rest => word ['a', 'l', 's', 'e'] rest
  | '"' :: rest => Quoted.skip rest
  | c :: rest => if Number.opens c then Number.skip (c :: rest) else .error .malformed

/-- Pass over what closes the open brackets.  `isDone` says that a value has just ended; otherwise
    one begins. -/
def skipOpen : (rounds : Nat) → (isDone : Bool) → List Bracket → List Char →
    Except Fault (List Char)
  | 0, _, _, _ => .error .truncated
  | _ + 1, true, [], text => .ok text
  | rounds + 1, true, .sequence :: brackets, text =>
    match skipBlanks text with
    | ',' :: rest => skipOpen rounds false (.sequence :: brackets) rest
    | ']' :: rest => skipOpen rounds true brackets rest
    | [] => .error .truncated
    | _ => .error .malformed
  | rounds + 1, true, .map :: brackets, text =>
    match skipBlanks text with
    | ',' :: rest =>
      match skipKey rest with
      | .error fault => .error fault
      | .ok rest => skipOpen rounds false (.map :: brackets) rest
    | '\x7d' :: rest => skipOpen rounds true brackets rest
    | [] => .error .truncated
    | _ => .error .malformed
  | rounds + 1, false, brackets, text =>
    match skipBlanks text with
    | '[' :: rest =>
      match skipBlanks rest with
      | ']' :: rest => skipOpen rounds true brackets rest
      | rest => skipOpen rounds false (.sequence :: brackets) rest
    | '\x7b' :: rest =>
      match skipBlanks rest with
      | '\x7d' :: rest => skipOpen rounds true brackets rest
      | rest =>
        match skipKey rest with
        | .error fault => .error fault
        | .ok rest => skipOpen rounds false (.map :: brackets) rest
    | text =>
      match skipScalar text with
      | .error fault => .error fault
      | .ok rest => skipOpen rounds true brackets rest

/-- Pass over one value.  Every two rounds take a character, so the rounds are enough. -/
def skipValue (text : List Char) : Except Fault (List Char) :=
  skipOpen (2 * text.length + 2) false [] text

end Treeprint.Json
