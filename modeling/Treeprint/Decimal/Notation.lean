import Treeprint.Decimal.Shortest

/-!
# Doubles as text

The shortest digits are written out where the first digit stands between the fifth place after the
point and the sixteenth before it, and always with a point; otherwise with an exponent, whose sign
is always written.
-/

namespace Treeprint.Decimal

structure Layout where
  /-- The lowest exponent of the first digit that is written out. -/
  lowest : Int
  /-- The highest exponent of the first digit that is written out. -/
  highest : Int
  exponentMark : Char
  plusSign : Bool

def Layout.standard : Layout := ⟨-5, 15, 'e', true⟩

def integerChars (layout : Layout) (n : Int) : List Char :=
  if n < 0 then '-' :: digitChars n.natAbs
  else (if layout.plusSign then ['+'] else []) ++ digitChars n.natAbs

/-- A positive decimal as text. -/
def Scaled.render (layout : Layout) (x : Scaled) : List Char :=
  let x := x.normalize
  let digits := digitChars x.digits
  let first := x.exponent + (digits.length : Int) - 1
  if first < layout.lowest ∨ layout.highest < first then
    let mantissa := match digits with
      | head :: next :: rest => head :: '.' :: next :: rest
      | digits => digits
    mantissa ++ layout.exponentMark :: integerChars layout first
  else if 0 ≤ x.exponent then
    digits ++ List.replicate x.exponent.toNat '0' ++ ['.', '0']
  else if 0 ≤ first then
    digits.take (first.toNat + 1) ++ '.' :: digits.drop (first.toNat + 1)
  else '0' :: '.' :: (List.replicate (-first - 1).toNat '0' ++ digits)

/-- A finite double, given by its bits, as text. -/
def render (layout : Layout) (bits : UInt64) : List Char :=
  let magnitude := Binary.ofBits bits
  let sign := if 0x8000000000000000 ≤ bits then ['-'] else []
  if magnitude.significand = 0 then sign ++ ['0', '.', '0']
  else sign ++ (shortest magnitude).render layout

end Treeprint.Decimal
