import ProgramGraph.Number.Decimal

/-! Numerals: digits with a sign, a fraction and an exponent, and the numbers they denote. -/
namespace ProgramGraph

/-- A signed numeral `± digits · 10 ^ exponent`. -/
structure Numeral where
  negative : Bool
  digits : List Char
  exponent : Int

namespace Numeral

/-- The nearest number to a numeral; `none` if it lies beyond the greatest one. Numerals far
outside the range of exponents are settled without computing their power of ten. -/
def value? (n : Numeral) : Option Binary64 :=
  let significant := n.digits.dropWhile (· == '0')
  let p : Int := significant.length + n.exponent
  if significant.isEmpty || p < -330 then some Binary64.zero
  else if 310 < p then none
  else
    let x : Rat := Decimal.natOfDigits significant * (10 : Rat) ^ n.exponent
    Binary64.round? (if n.negative then -x else x)

/-- Whether a minus comes first, and what follows the sign. -/
private def sign : List Char → Bool × List Char
  | '-' :: cs => (true, cs)
  | '+' :: cs => (false, cs)
  | cs => (false, cs)

/-- The exponent behind its letter; where nothing is written it is zero. -/
private def exponent? : List Char → Option Int
  | [] => some 0
  | e :: cs => do
    guard (e == 'e' || e == 'E')
    let (minus, ds) := sign cs
    guard (!ds.isEmpty && ds.all Char.isDigit)
    let n : Int := Decimal.natOfDigits ds
    some (if minus then -n else n)

/-- Digits, perhaps with a sign before them, a point among or beside them, an exponent behind. -/
def read? (cs : List Char) : Option Numeral := do
  let (negative, cs) := sign cs
  let (whole, cs) := cs.span Char.isDigit
  let (fraction, cs) := match cs with
    | '.' :: rest => rest.span Char.isDigit
    | _ => ([], cs)
  guard (!(whole ++ fraction).isEmpty)
  return ⟨negative, whole ++ fraction, (← exponent? cs) - fraction.length⟩

end Numeral
end ProgramGraph
