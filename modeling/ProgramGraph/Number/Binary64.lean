/-! Binary floating-point numbers of 64 bits, as the rationals they denote. -/
namespace ProgramGraph

/-- Round to the nearest integer, selecting the even integer at a midpoint. -/
def roundEven (x : Rat) : Int :=
  let k := x.floor
  if x - k < 1 / 2 then k
  else if 1 / 2 < x - k then k + 1
  else k + k % 2

/-- The exponent `e` with `2 ^ e ≤ |x| < 2 ^ (e + 1)`, for `x ≠ 0`. -/
def binade (x : Rat) : Int :=
  let e : Int := (x.num.natAbs.log2 : Int) - (x.den.log2 : Int)
  if (2 : Rat) ^ e ≤ x.abs then e else e - 1

/-- Distance of the neighbouring numbers around `x`; it stops shrinking below `2 ^ (-1022)`. -/
def spacing (x : Rat) : Rat :=
  (2 : Rat) ^ (max (binade x - 52) (-1074))

/-- Round to 53 significant bits, without an upper bound on the exponent. -/
def nearest (x : Rat) : Rat :=
  if x = 0 then 0 else roundEven (x / spacing x) * spacing x

/-- The least power of two beyond the greatest finite number. -/
def supremum : Rat := (2 : Rat) ^ (1024 : Int)

/-- A finite number. Zero has no sign. -/
structure Binary64 where
  value : Rat
  nearest_value : nearest value = value
  abs_value_lt : value.abs < supremum
deriving DecidableEq

namespace Binary64

/-- The number nearest to `x`, unless it lies beyond the greatest finite one. -/
def round? (x : Rat) : Option Binary64 :=
  let y := nearest x
  if h : nearest y = y ∧ y.abs < supremum then some ⟨y, h.1, h.2⟩ else none

def ofInt? (n : Int) : Option Binary64 :=
  round? n

def zero : Binary64 where
  value := 0
  nearest_value := by decide
  abs_value_lt := by decide +kernel

instance : Inhabited Binary64 := ⟨zero⟩

/-- Whether the number is an integer. -/
def isInteger (x : Binary64) : Bool :=
  x.value.den = 1

/-- The integer that the number is, if it is one. -/
def toInt? (x : Binary64) : Option Int :=
  if x.isInteger then some x.value.num else none

/-- Integers up to this magnitude, `2 ^ 53 - 1`, are told apart by rounding. -/
def greatestSafe : Int := 9007199254740991

/-- Whether `n` is told apart from its neighbours by rounding. -/
def isSafe (n : Int) : Bool :=
  n.natAbs ≤ greatestSafe.natAbs

end Binary64
end ProgramGraph
