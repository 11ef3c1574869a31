import ProgramGraph.Number.Binary64

/-! Decimal digits of numbers, the fewest that read back. -/
namespace ProgramGraph

/-- The positive number `0.d₁d₂… · 10 ^ point`. -/
structure Decimal where
  digits : List Char
  point : Int
deriving DecidableEq

namespace Decimal

def digitsOf (n : Nat) : List Char :=
  Nat.toDigits 10 n

/-- The exponent `p` with `10 ^ (p - 1) ≤ x < 10 ^ p`, for `x > 0`. -/
def place (x : Rat) : Int :=
  let p : Int := (digitsOf x.num.natAbs).length - (digitsOf x.den).length
  if x < (10 : Rat) ^ p then p else p + 1

/-- The multiple of `unit` next to `x` that rounds back to `x`; of two the nearer, and at a midpoint
the even one. -/
def onGrid? (x unit : Rat) : Option Nat :=
  let low : Nat := (x / unit).floor.toNat
  let readsBack (n : Nat) : Bool := nearest (n * unit) = x
  match readsBack low, readsBack (low + 1) with
  | true, true => some (roundEven (x / unit)).toNat
  | true, false => some low
  | false, true => some (low + 1)
  | false, false => none

def dropTrailingZeros (ds : List Char) : List Char :=
  (ds.reverse.dropWhile (· == '0')).reverse

/-- The fewest digits that round back to `x > 0`, of those the nearest to it, at a midpoint even. -/
def shortest (x : Rat) : Decimal :=
  let p := place x
  let unit (k : Nat) : Rat := (10 : Rat) ^ (p - k)
  let found := (List.range 17).findSome? fun k => (onGrid? x (unit (k + 1))).map (·, k + 1)
  let (n, k) := found.getD ((x / unit 17).floor.toNat, 17)
  let ds := digitsOf n
  ⟨dropTrailingZeros ds, p - k + ds.length⟩

private def digitValue (c : Char) : Nat :=
  c.toNat - '0'.toNat

def natOfDigits (ds : List Char) : Nat :=
  ds.foldl (fun n c => 10 * n + digitValue c) 0

end Decimal
end ProgramGraph
