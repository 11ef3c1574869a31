import ProgramGraph.Number.Binary64

/-! Powers as the runtime computes them: two to the product of the exponent with the binary
logarithm of the base, in numbers of two parts. Each step rounds, so that a power may be off in its
last place. -/
namespace ProgramGraph

/-- A number under operations that round to 53 bits. -/
structure Rounded where
  value : Rat

namespace Rounded

instance : Add Rounded := ⟨fun x y => ⟨nearest (x.value + y.value)⟩⟩
instance : Sub Rounded := ⟨fun x y => ⟨nearest (x.value - y.value)⟩⟩
instance : Mul Rounded := ⟨fun x y => ⟨nearest (x.value * y.value)⟩⟩
instance : Div Rounded := ⟨fun x y => ⟨nearest (x.value / y.value)⟩⟩
instance (n : Nat) : OfNat Rounded n := ⟨⟨nearest n⟩⟩

/-- The number with a given pattern of a sign, 11 bits of exponent and 52 bits of fraction. -/
def ofBits (bits : Nat) : Rounded where
  value :=
    let fraction : Nat := bits % (1 <<< 52) + (1 <<< 52)
    let exponent : Int := ((bits >>> 52) % (1 <<< 11) : Nat)
    (if bits < 1 <<< 63 then 1 else -1) * fraction * (2 : Rat) ^ (exponent - 1075)

/-- Leave out the last bits of the significand. -/
def chop (bits : Nat) (x : Rounded) : Rounded where
  value :=
    let unit := spacing x.value * 2 ^ bits
    let count := (x.value.abs / unit).floor
    (if x.value < 0 then -count else count) * unit

/-- The leading half of a number, of at most 21 bits. -/
def high (x : Rounded) : Rounded := x.chop 32

/-- The value of a polynomial, from its last coefficient down to the first. -/
def polynomial (coefficients : List Rounded) (x : Rounded) : Rounded :=
  coefficients.foldr (fun c rest => c + x * rest) 0

/-- The sum of a leading part, which is a `high`, and a small rest. -/
structure Pair where
  leading : Rounded
  rest : Rounded

/-- A sum of two numbers, of which the first is much the greater one. -/
def split (u v : Rounded) : Pair :=
  let leading := (u + v).high
  ⟨leading, v - (leading - u)⟩

def logCoefficients : List Rounded :=
  [ofBits 0x3FE3333333333303, ofBits 0x3FDB6DB6DB6FABFF, ofBits 0x3FD55555518F264D,
    ofBits 0x3FD17460A91D4101, ofBits 0x3FCD864A93C9DB65, ofBits 0x3FCA7E284A454EEF]

def expCoefficients : List Rounded :=
  [ofBits 0x3FC555555555553E, ofBits 0xBF66C16C16BEBD93, ofBits 0x3F11566AAF25DE2C,
    ofBits 0xBEBBBD41C5D26BF1, ofBits 0x3E66376972BEA4D0]

/-- The logarithm of a number next to one, for exponents beyond `2 ^ 31`. -/
def logNearOne (x : Rounded) : Pair :=
  let t := x - 1
  let third := ofBits 0x3FD5555555555555
  let w := t * t * (ofBits 0x3FE0000000000000 - t * (third - t * ofBits 0x3FD0000000000000))
  split (ofBits 0x3FF7154760000000 * t)
    (t * ofBits 0x3E54AE0BF85DDF44 - w * ofBits 0x3FF71547652B82FE)

/-- A number as a power of two times a base between `7 / 8` and `7 / 4`. -/
structure Reduced where
  base : Rounded
  exponent : Int
  /-- Whether the base is closer to `3 / 2` than to `1`. -/
  isAboveOne : Bool

def reduce (x : Rat) : Reduced :=
  let e := binade x
  let significand := x / (2 : Rat) ^ e
  if significand < 1 + 0x3988F / 0x100000 then ⟨⟨significand⟩, e, false⟩
  else if significand < 1 + 0xBB67A / 0x100000 then ⟨⟨significand⟩, e, true⟩
  else ⟨⟨significand / 2⟩, e + 1, false⟩

/-- The binary logarithm of a positive number. -/
def log2 (x : Rat) : Pair :=
  let r := reduce x
  let center := if r.isAboveOne then ofBits 0x3FF8000000000000 else 1
  let u := r.base - center
  let v := 1 / (r.base + center)
  let quotient := u * v
  -- the quotient and the sum below it in two parts
  let sHigh := quotient.high
  let tHigh := r.base.chop 33 + center
  let tLow := r.base - (tHigh - center)
  let sLow := v * (u - sHigh * tHigh - sHigh * tLow)
  -- the logarithm to the base of `e`, over two thirds of the quotient
  let square := quotient * quotient
  let series := square * square * polynomial logCoefficients square + sLow * (sHigh + quotient)
  let sSquare := sHigh * sHigh
  let head := (3 + sSquare + series).high
  let tail := series - (head - 3 - sSquare)
  let p := split (sHigh * head) (sLow * head + tail * quotient)
  -- the change of the base, and the exponent
  let zHigh := ofBits 0x3FEEC709E0000000 * p.leading
  let offset := if r.isAboveOne then ofBits 0x3FE2B80340000000 else 0
  let offsetLow := if r.isAboveOne then ofBits 0x3E4CFDEB43CFD006 else 0
  let zLow := ofBits 0xBE3E2FE0145B01F5 * p.leading + p.rest * ofBits 0x3FEEC709DC3A03FD +
    offsetLow
  let n : Rounded := ⟨r.exponent⟩
  let leading := (zHigh + zLow + offset + n).high
  ⟨leading, zLow - (leading - n - offset - zHigh)⟩

/-- Two to a sum that is rounded to `z`. -/
def exp2 (pHigh pLow z : Rounded) : Rat :=
  let n : Int :=
    if 1 / 2 + 1 / 0x200000 ≤ z.value.abs then
      let whole := (z.value.abs + 1 / 2).floor
      if z.value < 0 then -whole else whole
    else 0
  let pHigh := pHigh - ⟨n⟩
  let t := (pLow + pHigh).high
  let u := t * ofBits 0x3FE62E4300000000
  let v := (pLow - (t - pHigh)) * ofBits 0x3FE62E42FEFA39EF + t * ofBits 0xBE205C610CA86C39
  let z := u + v
  let w := v - (z - u)
  let square := z * z
  let t := z - square * polynomial expCoefficients square
  let r := z * t / (t - 2 - (w + z * w))
  (1 - (r - z)).value * (2 : Rat) ^ n

end Rounded

namespace Binary64

open Rounded

/-- The integer part of the square root. -/
private def natSqrt (n : Nat) : Nat :=
  if n = 0 then 0
  else
    let r := 2 * natSqrt (n / 4)
    if (r + 1) * (r + 1) ≤ n then r + 1 else r
termination_by n
decreasing_by omega

/-- The square root to 256 bits; the root of a square is exact. -/
private def root (x : Rat) : Rat :=
  let unit := (2 : Rat) ^ (binade x / 2 - 255)
  natSqrt (x / (unit * unit)).floor.toNat * unit

/-- A power that is sure to be too large or to vanish. -/
private def extreme? (x y : Rat) : Option Rat :=
  if decide (1 < x) == decide (0 < y) then none else some 0

/-- `x ^ y` for `x > 0`; `none` if it lies beyond the greatest number. -/
def positivePower? (x y : Rat) : Option Rat :=
  -- bounds on the upper halves of the patterns: the next one above `2 ^ 31`, and so on
  let isHuge := 0x80000800 ≤ y.abs
  if x = 1 then some 1
  else if 0x10000100000000000 ≤ y.abs then extreme? x y
  else if isHuge ∧ (x < 1 - 1 / 0x200000 ∨ 1 + 1 / 0x100000 ≤ x) then extreme? x y
  else
    let l := if isHuge then logNearOne ⟨x⟩ else log2 x
    let exponent : Rounded := ⟨y⟩
    let pLow := (exponent - exponent.high) * l.leading + exponent * l.rest
    let pHigh := exponent.high * l.leading
    let z := pLow + pHigh
    let lost := (z - pHigh).value
    if 1024 < z.value ∨ z.value = 1024 ∧ lost < (pLow + ofBits 0x3C971547652B82FE).value then none
    else if z.value < -1075 ∨ z.value = -1075 ∧ pLow.value ≤ lost then some 0
    else some (exp2 pHigh pLow z)

/-- The power, if there is one within range: a negative base has integer powers only, and
zero has none that is negative. -/
def power? (x y : Binary64) : Option Binary64 :=
  let a := x.value
  let b := y.value
  if b = 0 then round? 1
  else if a = 0 then if b < 0 then none else some zero
  else if b = 1 then some x
  else if b = -1 then round? a⁻¹
  else if b = 2 then round? (a * a)
  else if b = 1 / 2 ∧ 0 < a then round? (root a)
  else if 0 < a then positivePower? a b >>= round?
  else if y.isInteger then do
    let p ← positivePower? a.abs b
    round? (if b.num % 2 = 0 then p else -p)
  else none

end Binary64
end ProgramGraph
