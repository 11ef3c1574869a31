import ProgramGraph.Literal.Fold
import ProgramGraph.Proofs.Literals.Rounding

/-! Powers that are numbers themselves. Programs compute them exactly, and a fold of a power can be
trusted if it is one of them. -/
namespace ProgramGraph

namespace Binary64

/-- The power with an integer exponent. Zero has none that is negative. -/
def integerPower? (x y : Binary64) : Option Rat :=
  if y.isInteger && !(x.value = 0 && y.value < 0) then some (x.value ^ y.value.num) else none

/-- The number that has a given value. -/
def ofValue? (q : Rat) : Option Binary64 := (round? q).filter (·.value = q)

/-- The power, where it is a number. -/
def exactPower? (x y : Binary64) : Option Binary64 := x.integerPower? y >>= ofValue?

theorem round?_value (x : Binary64) : round? x.value = some x := by
  unfold round?
  simp only [x.nearest_value, x.abs_value_lt, and_self, dif_pos]

theorem ofValue?_value (x : Binary64) : ofValue? x.value = some x := by
  rw [ofValue?, round?_value]
  simp [Option.filter]

theorem exactPower?_of_value {x y z : Binary64} (h : x.integerPower? y = some z.value) :
    x.exactPower? y = some z := by
  rw [exactPower?, h]
  exact z.ofValue?_value

/-- An exponent that is a natural number gives a power of integers. -/
theorem integerPower?_natCast {x y : Binary64} {a : Int} {n : Nat} (hx : x.value = a)
    (hy : y.value = n) : x.integerPower? y = some ((a ^ n : Int) : Rat) := by
  have hinteger : y.isInteger = true := by
    unfold isInteger
    rw [hy]
    exact decide_eq_true rfl
  have hnonneg : ¬ y.value < 0 := by
    rw [hy, not_lt]
    exact Nat.cast_nonneg n
  have hnum : y.value.num = (n : Int) := by
    rw [hy]
    rfl
  unfold integerPower?
  rw [hinteger, hnum, hx, zpow_natCast, Int.cast_pow]
  simp [hnonneg]

end Binary64

/-- Whether the fold of two literals, if there is one, is their power. -/
def Literal.foldsPower (a b : Literal) : Bool :=
  match a.number?, b.number?, foldBinary? .pow a b with
  | some x, some y, some c => c.number?.map Binary64.value = x.integerPower? y
  | _, _, _ => true

theorem Literal.value_of_foldsPower {a b c : Literal} {x y : Binary64} (hx : a.number? = some x)
    (hy : b.number? = some y) (h : foldBinary? .pow a b = some c) (hfold : foldsPower a b = true) :
    c.number?.map Binary64.value = x.integerPower? y := by
  unfold foldsPower at hfold
  rw [hx, hy, h] at hfold
  exact of_decide_eq_true hfold

/-- The computed `10 ** -4` is the number below the one that is next to it. -/
example :
    let integer (n : Int) : Literal := ⟨.integer, .number (Binary64.round? n).get!⟩
    (integer 10).foldsPower (integer 4) = true ∧
      (integer 10).foldsPower (integer (-4)) = false := by
  decide +kernel

end ProgramGraph
