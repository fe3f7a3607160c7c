import Treeprint.Path

/-!
# Globs and what they match

A glob is a list of tokens and matches strings of bytes, paths with `/` between the names.  The
meaning of a token is the set of ways to take something off the front of a string, given by what
remains; a list of tokens takes off one after the other, and a glob matches a string when nothing
may remain of it.

Sets of remainders are lists without repetition.  All of them are ends of one string, so there are
never more of them than the string is long.
-/

namespace Treeprint.Glob

inductive Token
  | literal (char : Char)
  /-- One byte other than a slash. -/
  | anyByte
  /-- Any bytes other than slashes. -/
  | run
  /-- `**/` at the start: any directories, also none. -/
  | leading
  /-- `/**` at the end: everything below a directory. -/
  | trailing
  /-- `/**/` in the middle: a slash, and directories between, also none. -/
  | between
  /-- One byte of a class, or one byte that is not of it. -/
  | oneOf (negated : Bool) (ranges : List (Char × Char))
  /-- One of several globs. -/
  | alternatives (branches : List (List Token))
  deriving Repr

/-! ### Taking bytes off the front -/

/-- What remains after the bytes `front`. -/
def without : (front : Bytes) → Bytes → Option Bytes
  | [], bytes => some bytes
  | _ :: _, [] => none
  | x :: front, y :: bytes => if x = y then without front bytes else none

/-- What remains after one byte that passes a test. -/
def withoutByte (test : UInt8 → Bool) : Bytes → Option Bytes
  | [] => none
  | b :: bytes => if test b then some bytes else none

/-- What may remain after any number of bytes other than slashes. -/
def afterRun : Bytes → List Bytes
  | [] => [[]]
  | b :: bytes => (b :: bytes) :: if b = Path.slash then [] else afterRun bytes

/-- Every end of a string, the string itself included. -/
def ends : Bytes → List Bytes
  | [] => [[]]
  | b :: bytes => (b :: bytes) :: ends bytes

/-- What may remain after a slash, wherever it is. -/
def afterSlashes : Bytes → List Bytes
  | [] => []
  | b :: bytes => if b = Path.slash then bytes :: afterSlashes bytes else afterSlashes bytes

/-- The byte ranges of one character range.  Only the last byte of the low end and the first byte of
    the high end are joined; the other bytes of the two characters stand alone. -/
def byteRanges (range : Char × Char) : List (UInt8 × UInt8) :=
  let low := String.utf8EncodeChar range.1
  let high := String.utf8EncodeChar range.2
  if range.1 = range.2 then low.map (fun b => (b, b))
  else low.dropLast.map (fun b => (b, b)) ++ [(low.getLastD 0, high.headD 0)]
    ++ high.tail.map (fun b => (b, b))

def inClass (ranges : List (Char × Char)) (b : UInt8) : Bool :=
  (ranges.flatMap byteRanges).any (fun range => range.1 ≤ b ∧ b ≤ range.2)

/-! ### Matching -/

mutual

/-- Whether nothing is written down for a token: it is a choice between nothings. -/
def Token.isVoid : Token → Bool
  | .alternatives branches => areVoid branches
  | _ => false

/-- Whether nothing is written down for a glob. -/
def isVoid : List Token → Bool
  | [] => true
  | token :: tokens => token.isVoid && isVoid tokens

def areVoid : List (List Token) → Bool
  | [] => true
  | branch :: branches => isVoid branch && areVoid branches

end

mutual

/-- What may remain of any of the strings after a token. -/
def Token.after : Token → List Bytes → List Bytes
  | .literal char, strings => strings.filterMap (without (String.utf8EncodeChar char))
  | .anyByte, strings => strings.filterMap (withoutByte (· ≠ Path.slash))
  | .run, strings => (strings.flatMap afterRun).eraseDups
  | .leading, strings =>
    (strings.flatMap (fun s => s :: afterSlashes s)).eraseDups
  | .trailing, strings =>
    ((strings.filterMap (withoutByte (· = Path.slash))).flatMap ends).eraseDups
  | .between, strings =>
    ((strings.filterMap (withoutByte (· = Path.slash))).flatMap
      (fun s => s :: afterSlashes s)).eraseDups
  | .oneOf negated ranges, strings =>
    strings.filterMap (withoutByte (fun b => inClass ranges b != negated))
  | .alternatives branches, strings =>
    if areVoid branches then strings else (afterAny branches strings).eraseDups

/-- What may remain of any of the strings after all tokens. -/
def afterAll : List Token → List Bytes → List Bytes
  | [], strings => strings
  | token :: tokens, strings => afterAll tokens (token.after strings)

/-- What may remain after one of several globs; those that are void are left out. -/
def afterAny : List (List Token) → List Bytes → List Bytes
  | [], _ => []
  | branch :: branches, strings =>
    (if isVoid branch then [] else afterAll branch strings) ++ afterAny branches strings

end

/-- Whether a glob matches a path.  A glob that is nothing but `**` matches everything. -/
def accepts (glob : List Token) (path : Bytes) : Bool :=
  match glob with
  | [.leading] => true
  | _ => (afterAll glob [path]).any List.isEmpty

end Treeprint.Glob
