import ProgramGraph.Number.Decimal

/-! Written forms of numbers: where positional notation ends and how exponents are spelt. -/
namespace ProgramGraph

/-- Decisions of a written form of numbers. -/
structure Notation where
  /-- Least and greatest places of the decimal point that are written positionally. -/
  leastPoint : Int
  greatestPoint : Int
  /-- Exponents have at least this many digits. -/
  exponentWidth : Nat
  /-- Whole numbers written positionally keep `.0`. -/
  keepsFraction : Bool

namespace Notation

/-- Numbers of data: positional from `1e-6` up to `1e21`. -/
def plain : Notation := ⟨-5, 21, 1, false⟩

/-- Real constants of programs: positional from `1e-4` up to `1e16`, never without a fraction. -/
def real : Notation := ⟨-3, 16, 2, true⟩

def zeros (n : Int) : List Char :=
  List.replicate n.toNat '0'

def positional (style : Notation) (d : Decimal) : List Char :=
  let count : Int := d.digits.length
  if d.point ≤ 0 then '0' :: '.' :: zeros (-d.point) ++ d.digits
  else if count ≤ d.point then
    d.digits ++ zeros (d.point - count) ++ (if style.keepsFraction then ['.', '0'] else [])
  else d.digits.take d.point.toNat ++ '.' :: d.digits.drop d.point.toNat

private def scientific (style : Notation) (d : Decimal) : List Char :=
  let exponent := d.point - 1
  let written := Decimal.digitsOf exponent.natAbs
  let mantissa := match d.digits with
    | [] => []
    | [c] => [c]
    | c :: rest => c :: '.' :: rest
  mantissa ++ 'e' :: (if exponent < 0 then '-' else '+') ::
    zeros ((style.exponentWidth : Int) - written.length) ++ written

/-- The written form of `x`, with the fewest digits that read back. -/
def write (style : Notation) (x : Binary64) : String :=
  if x.value = 0 then (if style.keepsFraction then "0.0" else "0")
  else
    let d := Decimal.shortest x.value.abs
    let body := if style.leastPoint ≤ d.point && d.point ≤ style.greatestPoint
      then style.positional d else style.scientific d
    String.ofList (if x.value < 0 then '-' :: body else body)

/-- Beyond the greatest place of the decimal point an exponent is written. -/
theorem mem_write_of_lt_point {style : Notation} {x : Binary64} (hx : x.value ≠ 0)
    (h : style.greatestPoint < (Decimal.shortest x.value.abs).point) :
    'e' ∈ (style.write x).toList := by
  have hbody : ∀ d, 'e' ∈ style.scientific d := by
    intro d
    unfold scientific
    simp
  have hwindow : ¬ (style.leastPoint ≤ (Decimal.shortest x.value.abs).point &&
      (Decimal.shortest x.value.abs).point ≤ style.greatestPoint) = true := by
    rw [Bool.and_eq_true, decide_eq_true_eq, decide_eq_true_eq]
    omega
  unfold write
  dsimp only
  rw [if_neg hx, if_neg hwindow, String.toList_ofList]
  split
  · exact List.mem_cons_of_mem _ (hbody _)
  · exact hbody _

end Notation
end ProgramGraph
