import ProgramGraph.Proofs.Literals.Denotes
import ProgramGraph.Proofs.Literals.Grid
/-! Floor division and remainder of integer literals: when the folded numbers obey the law of
division. -/
namespace ProgramGraph

/-- An integer with half a unit is rounded to the even one of its neighbours. -/
theorem roundEven_add_half (k : Int) : roundEven ((k : Rat) + 1 / 2) = k + k % 2 := by
  have hlow : (k : Rat) ≤ k + 1 / 2 := by linarith
  have hhigh : (k : Rat) + 1 / 2 < k + 1 := by linarith
  have hfloor : ((k : Rat) + 1 / 2).floor = k :=
    Int.floor_eq_iff.mpr ⟨hlow, hhigh⟩
  unfold roundEven
  rw [hfloor]
  norm_num

/-- Even integers of 54 bits are numbers. -/
theorem nearest_even {p : Int} (hp : p % 2 = 0) (hsmall : p.natAbs < 2 ^ 54) : nearest p = p := by
  have hhalf : (p : Rat) = ((p / 2 : Int) : Rat) * (2 : Rat) ^ (1 : Int) := by
    have heven : p = p / 2 * 2 := by omega
    rw [zpow_one]
    exact_mod_cast heven
  rw [hhalf]
  exact nearest_mul_zpow (by omega) (by norm_num)

/-- Odd integers beyond 53 bits are none: they are rounded to the multiple of four beside them. -/
theorem nearest_odd {p : Int} (hp : p % 2 = 1) (hlarge : 2 ^ 53 < p.natAbs)
    (hsmall : p.natAbs < 2 ^ 54) : nearest p = ((p - 2 + p % 4 : Int) : Rat) := by
  have hp0 : p ≠ 0 := by omega
  have hlog : p.natAbs.log2 = 53 := (Nat.log2_eq_iff (by omega)).mpr ⟨hlarge.le, hsmall⟩
  have hspacing : spacing p = 2 := by
    rw [spacing_intCast hp0, hlog]
    norm_num
  have hquotient : (p : Rat) / 2 = ((p / 2 : Int) : Rat) + 1 / 2 := by
    have hodd : p = 2 * (p / 2) + 1 := by omega
    have hcast : (p : Rat) = 2 * ((p / 2 : Int) : Rat) + 1 := by exact_mod_cast hodd
    linarith
  unfold nearest
  rw [if_neg (by exact_mod_cast hp0), hspacing, hquotient, roundEven_add_half]
  have hvalue : (p / 2 + p / 2 % 2) * 2 = p - 2 + p % 4 := by omega
  exact_mod_cast hvalue

/-- Whether an integer of 54 bits is a number. -/
def isRepresented (p : Int) : Bool := p.natAbs ≤ 2 ^ 53 || p % 2 = 0

/-- What an integer of 54 bits is rounded to. -/
def nearestInt (p : Int) : Int := if isRepresented p then p else p - 2 + p % 4

theorem nearest_intCast_of_lt {p : Int} (h : p.natAbs < 2 ^ 54) : nearest p = nearestInt p := by
  unfold nearestInt
  split
  · rename_i hp
    unfold isRepresented at hp
    rw [Bool.or_eq_true, decide_eq_true_eq, decide_eq_true_eq] at hp
    rcases hp with hsmall | heven
    · simpa using nearest_mul_zpow (e := 0) hsmall (by norm_num)
    · exact nearest_even heven h
  · rename_i hp
    unfold isRepresented at hp
    rw [Bool.or_eq_true, decide_eq_true_eq, decide_eq_true_eq, not_or] at hp
    exact nearest_odd (by omega) (by omega) h

/-- Rounding moves an odd integer of 54 bits by one. -/
theorem natAbs_sub_nearestInt (p : Int) :
    (p - nearestInt p).natAbs = if isRepresented p then 0 else 1 := by
  unfold nearestInt
  split
  · simp
  · rename_i hp
    unfold isRepresented at hp
    rw [Bool.or_eq_true, decide_eq_true_eq, decide_eq_true_eq, not_or] at hp
    omega

/-- The law of floor division: the remainder lies between zero and the divisor. -/
structure FloorDivision (m n q r : Int) : Prop where
  equation : m = q * n + r
  positive : 0 < n → 0 ≤ r ∧ r < n
  negative : n < 0 → n < r ∧ r ≤ 0

theorem floorDivision_fdiv_fmod (m n : Int) : FloorDivision m n (m.fdiv n) (m.fmod n) where
  equation := (Int.fdiv_mul_add_fmod m n).symm
  positive h := ⟨Int.fmod_nonneg_of_pos m h, Int.fmod_lt_of_pos m h⟩
  negative h := by
    have hopposite : (-m).fmod (-n) = -m.fmod n := Int.neg_fmod_neg m n
    have hlow := Int.fmod_nonneg_of_pos (-m) (by omega : 0 < -n)
    have hhigh := Int.fmod_lt_of_pos (-m) (by omega : 0 < -n)
    omega

theorem FloorDivision.eq_fmod {m n r : Int} (h : FloorDivision m n (m.fdiv n) r) :
    r = m.fmod n := by
  have hlaw := h.equation
  have hown := Int.fdiv_mul_add_fmod m n
  omega

/-- What is left of an integer after the rounded product of a divisor with the quotient. -/
def roundedRemainder (m n : Int) : Int := m - nearestInt (m.fdiv n * n)

section
variable {m n : Int}

theorem natAbs_fmod_lt (hn : n ≠ 0) : (m.fmod n).natAbs < n.natAbs := by
  have hlaw := floorDivision_fdiv_fmod m n
  rcases lt_or_gt_of_ne hn with hneg | hpos
  · have hbounds := hlaw.negative hneg
    omega
  · have hbounds := hlaw.positive hpos
    omega

theorem natAbs_roundedRemainder_sub :
    (roundedRemainder m n - m.fmod n).natAbs =
      if isRepresented (m.fdiv n * n) then 0 else 1 := by
  rw [← natAbs_sub_nearestInt]
  have hown := Int.fdiv_mul_add_fmod m n
  unfold roundedRemainder
  omega

/-- The rounded remainder obeys the law unless the product is rounded. -/
theorem floorDivision_roundedRemainder_iff :
    FloorDivision m n (m.fdiv n) (roundedRemainder m n) ↔
      isRepresented (m.fdiv n * n) = true := by
  have hdistance := natAbs_roundedRemainder_sub (m := m) (n := n)
  constructor
  · intro h
    by_contra hodd
    rw [h.eq_fmod, if_neg hodd] at hdistance
    omega
  · intro hrepresented
    rw [if_pos hrepresented] at hdistance
    have heq : roundedRemainder m n = m.fmod n := by omega
    rw [heq]
    exact floorDivision_fdiv_fmod m n

theorem roundedRemainder_of_isSafe (h : Binary64.isSafe (n * m.fdiv n) = true) :
    roundedRemainder m n = m.fmod n := by
  refine FloorDivision.eq_fmod (floorDivision_roundedRemainder_iff.mpr ?_)
  have hsmall := Binary64.lt_of_isSafe h
  rw [mul_comm] at hsmall
  unfold isRepresented
  rw [Bool.or_eq_true, decide_eq_true_eq]
  exact .inl hsmall.le

variable (hm : Binary64.isSafe m = true) (hn : Binary64.isSafe n = true) (hn0 : n ≠ 0)

include hm in
theorem isSafe_fdiv : Binary64.isSafe (m.fdiv n) = true := by
  have hquotient := Int.natAbs_fdiv_le_natAbs m n
  unfold Binary64.isSafe at hm ⊢
  rw [decide_eq_true_eq] at hm ⊢
  omega

include hm hn hn0 in
theorem natAbs_fdiv_mul_lt : (m.fdiv n * n).natAbs < 2 ^ 54 := by
  have hremainder := natAbs_fmod_lt (m := m) hn0
  have hown := Int.fdiv_mul_add_fmod m n
  have hm' := Binary64.lt_of_isSafe hm
  have hn' := Binary64.lt_of_isSafe hn
  omega

include hn hn0 in
/-- The remainder that rounding moves is no larger than the divisor. -/
theorem isSafe_roundedRemainder : Binary64.isSafe (roundedRemainder m n) = true := by
  have hdistance := natAbs_roundedRemainder_sub (m := m) (n := n)
  have hremainder := natAbs_fmod_lt (m := m) hn0
  have hle : (roundedRemainder m n - m.fmod n).natAbs ≤ 1 := by
    rw [hdistance]
    split <;> decide
  unfold Binary64.isSafe at hn ⊢
  rw [decide_eq_true_eq] at hn ⊢
  omega

namespace Literal

include hm hn hn0 in
theorem floorQuotient_of_isSafe : floorQuotient m n = some ((m.fdiv n : Int) : Rat) := by
  have hsmall : |(m : Rat) / n| < 2 ^ 54 := by
    have hone : (1 : Rat) ≤ |(n : Rat)| := by exact_mod_cast Int.one_le_abs hn0
    calc
      |(m : Rat) / n| = |(m : Rat)| / |(n : Rat)| := abs_div _ _
      _ ≤ |(m : Rat)| := div_le_self (abs_nonneg _) hone
      _ < 2 ^ 53 := abs_intCast_lt hm
      _ < 2 ^ 54 := by norm_num
  obtain ⟨w, hw, hvalue⟩ := Binary64.exists_round? hsmall
  unfold floorQuotient
  rw [hw]
  change some ((w.value.floor : Int) : Rat) = _
  rw [hvalue, floor_nearest_div hm hn hn0]

variable {x y : Binary64} (hx : x.value = m) (hy : y.value = n)

include hm hn hn0 hx hy in
theorem foldBinary?_floorDiv :
    ∃ c, foldBinary? .floorDiv ⟨.integer, .number x⟩ ⟨.integer, .number y⟩ = some c ∧
      c.Denotes (.integer (m.fdiv n)) := by
  obtain ⟨z, c, hz, hc, hdenotes⟩ := exists_represented? (isSafe_fdiv (n := n) hm)
  have hzero : (n : Rat) ≠ 0 := by exact_mod_cast hn0
  have hevaluate : evaluate? .floorDiv x y = some z := by
    unfold evaluate? rounded
    dsimp only
    rw [hx, hy, if_neg hzero, floorQuotient_of_isSafe hm hn hn0]
    exact hz
  refine ⟨c, ?_, hdenotes⟩
  change (evaluate? .floorDiv x y).bind _ = _
  rw [hevaluate]
  exact hc

include hm hn hn0 hx hy in
theorem foldBinary?_mod :
    ∃ c, foldBinary? .mod ⟨.integer, .number x⟩ ⟨.integer, .number y⟩ = some c ∧
      c.Denotes (.integer (roundedRemainder m n)) := by
  obtain ⟨z, c, hz, hc, hdenotes⟩ := exists_represented? (isSafe_roundedRemainder (m := m) hn hn0)
  have hzero : (n : Rat) ≠ 0 := by exact_mod_cast hn0
  have hlarge := natAbs_fdiv_mul_lt hm hn hn0
  have hsmall : |((m.fdiv n * n : Int) : Rat)| < 2 ^ 54 := by
    rw [← abs_eq, abs_intCast]
    exact_mod_cast hlarge
  obtain ⟨product, hproduct, hvalue⟩ := Binary64.exists_round? hsmall
  rw [nearest_intCast_of_lt hlarge] at hvalue
  have hcast : (n : Rat) * ((m.fdiv n : Int) : Rat) = ((m.fdiv n * n : Int) : Rat) := by
    push_cast
    ring
  have hdifference : (m : Rat) - product.value = ((roundedRemainder m n : Int) : Rat) := by
    rw [hvalue, roundedRemainder]
    push_cast
    rfl
  have hevaluate : evaluate? .mod x y = some z := by
    unfold evaluate?
    dsimp only
    rw [hx, hy, if_neg hzero, floorQuotient_of_isSafe hm hn hn0]
    change (Binary64.round? (n * ((m.fdiv n : Int) : Rat))).bind _ = _
    rw [hcast, hproduct]
    change Binary64.round? (m - product.value) = _
    rw [hdifference]
    exact hz
  refine ⟨c, ?_, hdenotes⟩
  change (evaluate? .mod x y).bind _ = _
  rw [hevaluate]
  exact hc

end Literal
end

namespace Literal

/-- Floor division of integers folds to the floor. The remainder folds beside it, and the two obey
the law of division unless their product with the divisor is rounded; then the remainder is off by
one. -/
theorem foldBinary?_division {a b : Literal} {m n : Int} (ha : a.Denotes (.integer m))
    (hb : b.Denotes (.integer n)) (hn : n ≠ 0) :
    ∃ c d q r, foldBinary? .floorDiv a b = some c ∧ c.Denotes (.integer q) ∧
      foldBinary? .mod a b = some d ∧ d.Denotes (.integer r) ∧
      q = m.fdiv n ∧ (r - m.fmod n).natAbs ≤ 1 ∧
      (FloorDivision m n q r ↔ isRepresented (q * n) = true) := by
  cases ha with
  | integer hx hm =>
    cases hb with
    | integer hy hn' =>
      obtain ⟨c, hc, hquotient⟩ := foldBinary?_floorDiv hm hn' hn hx hy
      obtain ⟨d, hd, hremainder⟩ := foldBinary?_mod hm hn' hn hx hy
      have hdistance : (roundedRemainder m n - m.fmod n).natAbs ≤ 1 := by
        rw [natAbs_roundedRemainder_sub]
        split <;> decide
      exact ⟨c, d, m.fdiv n, roundedRemainder m n, hc, hquotient, hd, hremainder, rfl, hdistance,
        floorDivision_roundedRemainder_iff⟩

/-- The product with the divisor is `2 ^ 53`, which is a number though not a safe one. -/
theorem foldBinary?_division_greatest :
    ∃ c d q r, foldBinary? .floorDiv (.ofSafe 9007199254740991 rfl) (.ofSafe (-2) rfl) = some c ∧
      c.Denotes (.integer q) ∧
      foldBinary? .mod (.ofSafe 9007199254740991 rfl) (.ofSafe (-2) rfl) = some d ∧
      d.Denotes (.integer r) ∧ q = -4503599627370496 ∧ FloorDivision 9007199254740991 (-2) q r := by
  obtain ⟨c, d, q, r, hc, hq, hd, hr, hfloor, -, hlaw⟩ :=
    foldBinary?_division (denotes_ofSafe (n := 9007199254740991) rfl)
      (denotes_ofSafe (n := -2) rfl) (by decide)
  have hvalue : q = -4503599627370496 := by
    rw [hfloor]
    decide
  refine ⟨c, d, q, r, hc, hq, hd, hr, hvalue, hlaw.mpr ?_⟩
  rw [hvalue]
  decide

/-- The product with the divisor is odd and beyond 53 bits: the remainder is `-1` in place of
`-2`. -/
theorem foldBinary?_division_rounded :
    foldBinary? .floorDiv (.ofSafe 9007199254740991 rfl) (.ofSafe (-3) rfl) =
        some (.ofSafe (-3002399751580331) rfl) ∧
      foldBinary? .mod (.ofSafe 9007199254740991 rfl) (.ofSafe (-3) rfl) =
        some (.ofSafe (-1) rfl) ∧
      ¬ FloorDivision 9007199254740991 (-3) (-3002399751580331) (-1) := by
  refine ⟨by decide +kernel, by decide +kernel, ?_⟩
  intro h
  have hlaw := h.equation
  omega

end Literal
end ProgramGraph
