/-!
# The shortest decimal that reads back

A finite double is a multiple of a power of two, and every number of an interval around it rounds to
it.  Among the decimals in that interval the one with the fewest digits is chosen, and of those the
nearest.  Decimals are looked for on the grids of the powers of ten, the coarsest first; on each
grid only the two neighbours of the number have to be tried.
-/

namespace Treeprint.Decimal

/-- A positive number `significand * 2 ^ exponent`, as a double holds it. -/
structure Binary where
  significand : Nat
  exponent : Int

/-- The lowest significand of a double that is not among the smallest. -/
def leadingBit : Nat := 0x10000000000000

def Binary.ofBits (bits : UInt64) : Binary :=
  let fraction : Nat := bits.toNat % leadingBit
  let biased : Nat := bits.toNat / leadingBit % 2048
  if biased = 0 then ⟨fraction, -1074⟩ else ⟨leadingBit + fraction, (biased : Int) - 1075⟩

/-- A number `digits * 10 ^ exponent`. -/
structure Scaled where
  digits : Nat
  exponent : Int

/-- A power with a natural exponent; negative ones count as zero. -/
def power (base : Nat) (exponent : Int) : Nat := Nat.pow base exponent.toNat

/-- The decimal of a grid that reads back, if there is one.  Everything is counted in quarters of
    the last place of the significand and brought to whole numbers. -/
def onGrid (x : Binary) (exponent : Int) : Option Scaled :=
  let quarter := x.exponent - 2
  let scaled (n : Nat) : Nat := n * power 2 quarter * power 10 (-exponent)
  let step := power 10 exponent * power 2 (-quarter)
  let value := scaled (4 * x.significand)
  let low := scaled (4 * x.significand - if x.significand = leadingBit then 1 else 2)
  let high := scaled (4 * x.significand + 2)
  let inside (n : Nat) : Bool :=
    if x.significand % 2 = 0 then low ≤ n * step && n * step ≤ high
    else low < n * step && n * step < high
  let below := value / step
  match inside below, inside (below + 1) with
  | false, false => none
  | true, false => some ⟨below, exponent⟩
  | false, true => some ⟨below + 1, exponent⟩
  | true, true =>
    let down := value - below * step
    let up := (below + 1) * step - value
    if down < up ∨ (down = up ∧ below % 2 = 0) then some ⟨below, exponent⟩
    else some ⟨below + 1, exponent⟩

/-- The first of the next `grids` grids on which a decimal reads back. -/
def search (x : Binary) : (grids : Nat) → (exponent : Int) → Scaled
  | 0, exponent => ⟨0, exponent⟩
  | grids + 1, exponent =>
    match onGrid x exponent with
    | some decimal => decimal
    | none => search x grids (exponent - 1)

/-- The shortest decimal of a positive double.  No double reaches the first grid, and the last one
    holds every double. -/
def shortest (x : Binary) : Scaled := search x 1400 309

/-- The digits of a number, the highest first. -/
def digitChars (n : Nat) : List Char := Nat.toDigits 10 n

/-- How many zeros end a number's digits, and the number without them. -/
def Scaled.normalize (x : Scaled) : Scaled :=
  let zeros := ((digitChars x.digits).reverse.takeWhile (· = '0')).length
  ⟨x.digits / power 10 zeros, x.exponent + zeros⟩

end Treeprint.Decimal
