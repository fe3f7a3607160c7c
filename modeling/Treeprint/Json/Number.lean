import Treeprint.Decimal.Notation
import Treeprint.Json.Fault

/-!
# Numbers

Whole numbers of at most sixty-four bits are exact.  A number with a fraction or an exponent, and
one that is too long, is a double: as many digits as sixty-four bits hold are read as a whole
number, the others only move the point, and one multiplication or division by a power of ten
follows.  So the double is not always the nearest one.

Too large a number is malformed.
-/

namespace Treeprint.Json

inductive Number
  | natural (value : Nat)
  | negative (value : Int)
  | real (bits : UInt64)
  deriving DecidableEq, Repr

namespace Number

/-- A number as it is shown where it was not wanted. -/
def found : Number → Found
  | natural value => .integer value
  | negative value => .integer value
  | real bits => .real (Decimal.render .standard bits)

def largest : Nat := 0xFFFFFFFFFFFFFFFF

def isDigit (c : Char) : Bool := '0' ≤ c ∧ c ≤ '9'

def digitValue (c : Char) : Nat := c.toNat - '0'.toNat

def startsWithDigit : List Char → Bool
  | c :: _ => isDigit c
  | [] => false

/-- Read digits behind a number for as long as it stays within a limit: how many were read, the
    number, and the rest. -/
def digits (limit : Nat) : (count value : Nat) → List Char → Nat × Nat × List Char
  | count, value, [] => (count, value, [])
  | count, value, c :: rest =>
    if isDigit c ∧ value * 10 + digitValue c ≤ limit then
      digits limit (count + 1) (value * 10 + digitValue c) rest
    else (count, value, c :: rest)

/-- Pass over digits: how many there were, and the rest. -/
def skipDigits (text : List Char) : Nat × List Char :=
  ((text.takeWhile isDigit).length, text.dropWhile isDigit)

/-! ### Doubles -/

/-- Bring a double to a power of ten. -/
def scale : (rounds : Nat) → Float → Int → Except Fault Float
  | 0, x, _ => .ok x
  | rounds + 1, x, exponent =>
    if exponent.natAbs ≤ 308 then
      let power := Float.ofScientific 1 false exponent.natAbs
      if 0 ≤ exponent then
        if (x * power).isInf then .error .malformed else .ok (x * power)
      else .ok (x / power)
    else if x == 0 then .ok x
    else if 0 ≤ exponent then .error .malformed
    else scale rounds (x / Float.ofScientific 1 false 308) (exponent + 308)

/-- The double of a sign, a whole number and a power of ten.  Four rounds bring any whole number of
    sixty-four bits down to zero. -/
def double (isPositive : Bool) (significand : Nat) (exponent : Int) : Except Fault Number :=
  match scale 4 (UInt64.ofNat significand).toFloat exponent with
  | .error fault => .error fault
  | .ok x => .ok (.real (if isPositive then x else -x).toBits)

/-! ### The parts of a number -/

/-- The rest of an exponent that has become too large to matter. -/
def hugeExponent (isPositive isZero isUp : Bool) (text : List Char) :
    Except Fault (Number × List Char) :=
  if !isZero && isUp then .error .malformed
  else .ok (.real (if isPositive then (0.0 : Float) else -0.0).toBits, (skipDigits text).2)

/-- What follows an `e`. -/
def exponent (isPositive : Bool) (significand : Nat) (start : Int) (text : List Char) :
    Except Fault (Number × List Char) :=
  let (isUp, text) := match text with
    | '+' :: rest => (true, rest)
    | '-' :: rest => (false, rest)
    | text => (true, text)
  match text with
  | [] => .error .truncated
  | c :: rest =>
    if !isDigit c then .error .malformed
    else
      let (_, value, rest) := digits 0x7FFFFFFF 0 (digitValue c) rest
      if startsWithDigit rest then hugeExponent isPositive (significand = 0) isUp rest
      else
        (double isPositive significand (if isUp then start + value else start - value)).map
          (fun number => (number, rest))

/-- A double whose point has been moved, and perhaps an exponent. -/
def afterDigits (isPositive : Bool) (significand : Nat) (power : Int) (text : List Char) :
    Except Fault (Number × List Char) :=
  match text with
  | 'e' :: rest | 'E' :: rest => exponent isPositive significand power rest
  | text => (double isPositive significand power).map (fun number => (number, text))

/-- What follows a point. -/
def fraction (isPositive : Bool) (significand : Nat) (before : Int) (text : List Char) :
    Except Fault (Number × List Char) :=
  let (count, value, rest) := digits largest 0 significand text
  if startsWithDigit rest then
    afterDigits isPositive value (before - count) (skipDigits rest).2
  else if count = 0 then .error (if rest = [] then .truncated else .malformed)
  else afterDigits isPositive value (before - count) rest

/-- What follows the whole part. -/
def afterWhole (isPositive : Bool) (value : Nat) (text : List Char) :
    Except Fault (Number × List Char) :=
  match text with
  | '.' :: rest => fraction isPositive value 0 rest
  | 'e' :: rest | 'E' :: rest => exponent isPositive value 0 rest
  | text =>
    if isPositive then .ok (.natural value, text)
    else if 0 < value ∧ value ≤ 0x8000000000000000 then .ok (.negative (-value), text)
    else .ok (.real (-(UInt64.ofNat value).toFloat).toBits, text)

/-- What follows a whole part that is too long. -/
def afterLong (isPositive : Bool) (value : Nat) (text : List Char) :
    Except Fault (Number × List Char) :=
  let (count, rest) := skipDigits text
  match rest with
  | '.' :: rest => fraction isPositive value count rest
  | rest => afterDigits isPositive value count rest

def unsigned (isPositive : Bool) (text : List Char) : Except Fault (Number × List Char) :=
  match text with
  | [] => .error .truncated
  | c :: rest =>
    if c = '0' then
      if startsWithDigit rest then .error .malformed else afterWhole isPositive 0 rest
    else if isDigit c then
      let (_, value, rest) := digits largest 0 (digitValue c) rest
      if startsWithDigit rest then afterLong isPositive value rest
      else afterWhole isPositive value rest
    else .error .malformed

def read : Reader Number
  | '-' :: rest => unsigned false rest
  | text => unsigned true text

/-- Whether a number begins with a character. -/
def opens (c : Char) : Bool := c = '-' ∨ isDigit c

/-! ### Passing over a number -/

/-- Pass over at least one digit. -/
def skipSome (text : List Char) : Except Fault (List Char) :=
  if startsWithDigit text then .ok (skipDigits text).2 else .error .malformed

def skipExponent (text : List Char) : Except Fault (List Char) :=
  match text with
  | 'e' :: '+' :: rest | 'e' :: '-' :: rest | 'E' :: '+' :: rest | 'E' :: '-' :: rest =>
    skipSome rest
  | 'e' :: rest | 'E' :: rest => skipSome rest
  | text => .ok text

/-- Pass over a number; of its size nothing is asked. -/
def skip (text : List Char) : Except Fault (List Char) := do
  let text := match text with
    | '-' :: rest => rest
    | text => text
  let text ← match text with
    | '0' :: rest => if startsWithDigit rest then .error .malformed else .ok rest
    | text => skipSome text
  match text with
  | '.' :: rest => skipExponent (← skipSome rest)
  | text => skipExponent text

end Number

end Treeprint.Json
