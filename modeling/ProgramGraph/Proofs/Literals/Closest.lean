import ProgramGraph.Proofs.Literals.Grid

/-! Rounding gives the closest number, and so it keeps the order of numbers and undoes small moves
away from one. -/
namespace ProgramGraph

theorem roundEven_closest (x : Rat) (k : Int) : |(roundEven x : Rat) - x| ≤ |(k : Rat) - x| := by
  by_cases hk : roundEven x = k
  · rw [hk]
  · have hapart : (1 : Int) ≤ |roundEven x - k| := Int.one_le_abs (sub_ne_zero.mpr hk)
    have hcast : (1 : Rat) ≤ |(roundEven x : Rat) - k| := by exact_mod_cast hapart
    have htriangle := abs_sub_le (roundEven x : Rat) x k
    have herror := roundEven_error x
    rw [abs_sub_comm x] at htriangle
    linarith

theorem roundEven_neg (x : Rat) : roundEven (-x) = -roundEven x := by
  have hlo : (x.floor : Rat) ≤ x := Int.floor_le x
  have hhi : x < x.floor + 1 := Int.lt_floor_add_one x
  by_cases hx : x = x.floor
  · rw [hx, ← Int.cast_neg, roundEven_intCast, roundEven_intCast]
  · have hlt : (x.floor : Rat) < x := lt_of_le_of_ne hlo (Ne.symm hx)
    have hbelow : ((-x.floor - 1 : Int) : Rat) ≤ -x := by
      push_cast
      linarith
    have habove : -x < ((-x.floor - 1 : Int) : Rat) + 1 := by
      push_cast
      linarith
    have hfloor : (-x).floor = -x.floor - 1 := Int.floor_eq_iff.mpr ⟨hbelow, habove⟩
    unfold roundEven
    rw [hfloor]
    push_cast
    split_ifs <;> first | linarith | omega

theorem spacing_neg (x : Rat) : spacing (-x) = spacing x := by
  unfold spacing binade
  rw [Rat.neg_num, Rat.neg_den, Int.natAbs_neg, Rat.abs_neg]

theorem nearest_neg (x : Rat) : nearest (-x) = -nearest x := by
  by_cases hx : x = 0
  · rw [hx]
    rfl
  · unfold nearest
    rw [if_neg hx, if_neg (neg_ne_zero.mpr hx), spacing_neg, neg_div, roundEven_neg]
    push_cast
    ring

theorem spacing_le_spacing {x y : Rat} (hx : x ≠ 0) (h : |x| ≤ |y|) : spacing x ≤ spacing y := by
  have hbinade : binade x ≤ binade y := le_binade ((zpow_binade_le hx).trans h)
  exact zpow_le_zpow_right₀ (by norm_num) (max_le_max (by omega) le_rfl)

/-- A number lies on the grid of every number with a smaller spacing. -/
theorem multiple_of_nearest {x z : Rat} (hz : nearest z = z) (h : spacing x ≤ spacing z) :
    ∃ k : Int, z = k * spacing x := by
  by_cases hz0 : z = 0
  · exact ⟨0, by rw [hz0, Int.cast_zero, zero_mul]⟩
  · let g := max (binade x - 52) (-1074)
    let e := max (binade z - 52) (-1074)
    have hg : g ≤ e := (zpow_le_zpow_iff_right₀ (by norm_num)).mp h
    have hsplit : spacing z = 2 ^ (e - g).toNat * spacing x := by
      change (2 : Rat) ^ e = 2 ^ (e - g).toNat * (2 : Rat) ^ g
      rw [← zpow_natCast, Int.toNat_of_nonneg (by omega), ← zpow_add₀ (by norm_num),
        sub_add_cancel]
    refine ⟨roundEven (z / spacing z) * 2 ^ (e - g).toNat, ?_⟩
    calc
      z = nearest z := hz.symm
      _ = roundEven (z / spacing z) * spacing z := if_neg hz0
      _ = roundEven (z / spacing z) * 2 ^ (e - g).toNat * spacing x := by rw [hsplit, mul_assoc]
      _ = _ := by push_cast; rfl

/-- No number is closer than the one that rounding gives. -/
theorem nearest_closest {x z : Rat} (hz : nearest z = z) : |nearest x - x| ≤ |z - x| := by
  by_cases hx : x = 0
  · have hzero : nearest x - x = 0 := by
      rw [hx, sub_zero]
      rfl
    rw [hzero, abs_zero]
    exact abs_nonneg _
  have hs := spacing_pos x
  have hgrid : ∀ k : Int, |nearest x - x| ≤ |k * spacing x - x| := by
    have hscale : ∀ j : Int, |j * spacing x - x| = |(j : Rat) - x / spacing x| * spacing x := by
      intro j
      rw [← abs_of_pos hs, ← abs_mul, abs_of_pos hs, sub_mul, div_mul_cancel₀ _ hs.ne']
    have hvalue : nearest x = roundEven (x / spacing x) * spacing x := if_neg hx
    intro k
    rw [hvalue, hscale, hscale]
    exact mul_le_mul_of_nonneg_right (roundEven_closest _ k) hs.le
  rcases le_or_gt (spacing x) (spacing z) with hle | hlt
  · obtain ⟨k, hk⟩ := multiple_of_nearest hz hle
    rw [hk]
    exact hgrid k
  · -- Below the binade of `x` the grid is finer, but the power of two between them is closer.
    have hexponent := (zpow_lt_zpow_iff_right₀ (by norm_num : (1 : Rat) < 2)).mp hlt
    have hbelow : |z| < (2 : Rat) ^ binade x :=
      (lt_zpow_binade z).trans_le (zpow_le_zpow_right₀ (by norm_num) (by omega))
    have hpower : (2 : Rat) ^ binade x = 2 ^ 52 * spacing x := by
      unfold spacing
      rw [max_eq_left (by omega), ← zpow_natCast, ← zpow_add₀ (by norm_num)]
      congr 1
      push_cast
      ring
    have hlow := zpow_binade_le hx
    have hfar := abs_sub_abs_le_abs_sub x z
    rw [abs_sub_comm] at hfar
    rcases le_total 0 x with hpos | hneg
    · have hbetween := hgrid (2 ^ 52)
      rw [Int.cast_pow, Int.cast_ofNat, ← hpower] at hbetween
      rw [abs_of_nonneg hpos] at hlow hfar
      have hdistance := abs_of_nonpos (show (2 : Rat) ^ binade x - x ≤ 0 by linarith)
      linarith
    · have hbetween := hgrid (-2 ^ 52)
      rw [Int.cast_neg, Int.cast_pow, Int.cast_ofNat, neg_mul, ← hpower] at hbetween
      rw [abs_of_nonpos hneg] at hlow hfar
      have hdistance := abs_of_nonneg (show 0 ≤ -(2 : Rat) ^ binade x - x by linarith)
      linarith

/-- Rounding keeps the order. -/
theorem nearest_mono {x y : Rat} (h : x ≤ y) : nearest x ≤ nearest y := by
  -- What is at least as close to the greater of two numbers lies beyond their middle.
  have hmiddle : ∀ {a b c : Rat}, b < a → |a - c| ≤ |b - c| → a + b ≤ 2 * c := by
    intro a b c hlt hle
    by_contra hgt
    have hlow : -(a - c) < b - c := by linarith
    have hhigh : b - c < a - c := by linarith
    exact absurd ((abs_lt.mpr ⟨hlow, hhigh⟩).trans_le (le_abs_self _)) (not_lt.mpr hle)
  by_contra hgt
  have hlt : nearest y < nearest x := not_le.mp hgt
  have hx := hmiddle hlt (nearest_closest (nearest_nearest y))
  have hy := nearest_closest (x := y) (nearest_nearest x)
  have hy' := hmiddle (a := -nearest y) (b := -nearest x) (c := -y) (by linarith) (by
    rwa [neg_sub_neg, neg_sub_neg, abs_sub_comm y, abs_sub_comm y])
  obtain rfl : x = y := le_antisymm h (by linarith)
  exact lt_irrefl _ hlt

/-- The gap between two numbers is more than the lower one at its 53rd bit. -/
theorem lt_sub_mul {w z : Rat} (hw : nearest w = w) (hz : nearest z = z) (hpos : 0 < w)
    (hlt : w < z) : w < (z - w) * 2 ^ 53 := by
  have hs := spacing_pos w
  have hle : |w| ≤ |z| := by
    rw [abs_of_pos hpos, abs_of_pos (hpos.trans hlt)]
    exact hlt.le
  obtain ⟨k, hk⟩ := multiple_of_nearest hz (spacing_le_spacing hpos.ne' hle)
  obtain ⟨j, hj⟩ := multiple_of_nearest hw le_rfl
  have hstep : 1 ≤ k - j := by
    by_contra hsmall
    have hcast : (k : Rat) ≤ j := by exact_mod_cast (show k ≤ j by omega)
    have hmul := mul_le_mul_of_nonneg_right hcast hs.le
    linarith
  have hgap : spacing w ≤ z - w := by
    have hcast : (1 : Rat) ≤ k - j := by exact_mod_cast hstep
    have hmul := mul_le_mul_of_nonneg_right hcast hs.le
    linarith
  have hbits := abs_div_spacing_lt w
  rw [abs_div, abs_of_pos hs, abs_of_pos hpos, div_lt_iff₀ hs] at hbits
  linarith

/-- A small move away from a number is undone by rounding. -/
theorem nearest_of_close {x y : Rat} (hx : nearest x = x) (hpos : 0 < x)
    (h : |y - x| * (2 ^ 54 + 2) ≤ x) : nearest y = x := by
  have hclosest := nearest_closest (x := y) hx
  have htriangle := abs_sub_le (nearest y) y x
  rw [abs_sub_comm x] at hclosest
  have hmove : |nearest y - x| ≤ 2 * |y - x| := by linarith
  rcases lt_trichotomy (nearest y) x with hlt | heq | hgt
  · rw [abs_of_neg (by linarith)] at hmove
    have hy : 0 < nearest y := by linarith [abs_nonneg (y - x)]
    have hgap := lt_sub_mul (nearest_nearest y) hx hy hlt
    linarith
  · exact heq
  · rw [abs_of_pos (by linarith)] at hmove
    have hgap := lt_sub_mul hx (nearest_nearest y) hpos hgt
    linarith [abs_nonneg (y - x)]

end ProgramGraph
