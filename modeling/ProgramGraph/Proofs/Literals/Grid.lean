import ProgramGraph.Proofs.Literals.Rounding

/-! Numbers that rounding keeps: multiples of a power of two with up to 53 bits. What rounding
gives is one of them, so that it is there unless it is too large. -/
namespace ProgramGraph

/-- A multiple of the spacing around it is not moved. -/
theorem nearest_of_multiple {x : Rat} {j : Int} (h : x = j * spacing x) : nearest x = x := by
  have hs := (spacing_pos x).ne'
  unfold nearest
  split
  · exact ‹x = 0›.symm
  · have hquotient : x / spacing x = j := by
      rw [div_eq_iff hs]
      exact h
    rw [hquotient, roundEven_intCast]
    exact h.symm

private theorem nearest_mul_zpow_of_lt {k e : Int} (hk : k.natAbs < 2 ^ 53) (he : -1074 ≤ e) :
    nearest (k * (2 : Rat) ^ e) = k * (2 : Rat) ^ e := by
  by_cases hk0 : k = 0
  · subst hk0
    rw [Int.cast_zero, zero_mul]
    rfl
  · let x : Rat := k * (2 : Rat) ^ e
    have hunit : (0 : Rat) < (2 : Rat) ^ e := zpow_pos (by norm_num) _
    have hx : x ≠ 0 := mul_ne_zero (by exact_mod_cast hk0) hunit.ne'
    have hlt : (2 : Rat) ^ binade x < (2 : Rat) ^ (53 + e) := by
      calc
        (2 : Rat) ^ binade x ≤ |x| := zpow_binade_le hx
        _ = (k.natAbs : Rat) * (2 : Rat) ^ e := by
          rw [abs_mul, abs_of_pos hunit, ← abs_eq, abs_intCast]
        _ < (2 : Rat) ^ (53 : Int) * (2 : Rat) ^ e :=
          mul_lt_mul_of_pos_right (by exact_mod_cast hk) hunit
        _ = (2 : Rat) ^ (53 + e) := (zpow_add₀ (by norm_num) _ _).symm
    have hbinade := (zpow_lt_zpow_iff_right₀ (by norm_num)).mp hlt
    let g := max (binade x - 52) (-1074)
    have hg : g ≤ e := max_le (by omega) he
    have hsplit : (2 : Rat) ^ e = 2 ^ (e - g).toNat * (2 : Rat) ^ g := by
      rw [← zpow_natCast, Int.toNat_of_nonneg (by omega), ← zpow_add₀ (by norm_num),
        sub_add_cancel]
    have hmultiple : x = ((k * 2 ^ (e - g).toNat : Int) : Rat) * spacing x := by
      change k * (2 : Rat) ^ e = _ * (2 : Rat) ^ g
      rw [hsplit]
      push_cast
      ring
    exact nearest_of_multiple hmultiple

/-- Numbers of 53 bits on a grid are kept, and so is the power of two behind them. -/
theorem nearest_mul_zpow {k e : Int} (hk : k.natAbs ≤ 2 ^ 53) (he : -1074 ≤ e) :
    nearest (k * (2 : Rat) ^ e) = k * (2 : Rat) ^ e := by
  rcases hk.lt_or_eq with hlt | heq
  · exact nearest_mul_zpow_of_lt hlt he
  · have hhalf : (k : Rat) * (2 : Rat) ^ e = ((k / 2 : Int) : Rat) * (2 : Rat) ^ (e + 1) := by
      have heven : k = 2 * (k / 2) := by omega
      have hcast : (k : Rat) = 2 * ((k / 2 : Int) : Rat) := by exact_mod_cast heven
      rw [hcast, zpow_add_one₀ (by norm_num)]
      ring
    rw [hhalf]
    exact nearest_mul_zpow_of_lt (by omega) (by omega)

/-- A number is less than 53 bits of its spacing. -/
theorem abs_div_spacing_lt (x : Rat) : |x / spacing x| < 2 ^ 53 := by
  have hs := spacing_pos x
  rw [abs_div, abs_of_pos hs, div_lt_iff₀ hs]
  calc
    |x| < (2 : Rat) ^ (binade x + 1) := lt_zpow_binade x
    _ = (2 : Rat) ^ 53 * (2 : Rat) ^ (binade x - 52) := by
      rw [← zpow_natCast, ← zpow_add₀ (by norm_num)]
      congr 1
      push_cast
      ring
    _ ≤ 2 ^ 53 * spacing x :=
      mul_le_mul_of_nonneg_left
        (zpow_le_zpow_right₀ (by norm_num) (le_max_left _ _)) (by norm_num)

/-- What rounding gives is not moved by rounding. -/
theorem nearest_nearest (x : Rat) : nearest (nearest x) = nearest x := by
  by_cases hx : x = 0
  · subst hx
    rfl
  · have hbound : (roundEven (x / spacing x)).natAbs ≤ 2 ^ 53 := by
      have herror := roundEven_error (x / spacing x)
      have htriangle := abs_sub_abs_le_abs_sub (roundEven (x / spacing x) : Rat) (x / spacing x)
      have hsmall := abs_div_spacing_lt x
      have hlt : (((roundEven (x / spacing x)).natAbs : Int) : Rat) < ((2 ^ 53 + 1 : Int) : Rat) := by
        rw [Int.natCast_natAbs, Int.cast_abs]
        push_cast
        linarith
      have hcast : ((roundEven (x / spacing x)).natAbs : Int) < 2 ^ 53 + 1 := by exact_mod_cast hlt
      omega
    have hvalue : nearest x = roundEven (x / spacing x) * spacing x := if_neg hx
    rw [hvalue]
    exact nearest_mul_zpow hbound (le_max_right _ _)

/-- Numbers of moderate size are rounded to a number. -/
theorem Binary64.exists_round? {x : Rat} (h : |x| < 2 ^ 54) :
    ∃ y, round? x = some y ∧ y.value = nearest x := by
  have hbound : (nearest x).abs < supremum := by
    have hexponent : max (binade x - 52) (-1074) ≤ 54 := by
      refine max_le ?_ (by norm_num)
      by_cases hx : x = 0
      · subst hx
        decide +kernel
      · have hlt : (2 : Rat) ^ binade x < (2 : Rat) ^ (54 : Int) :=
          (zpow_binade_le hx).trans_lt (by exact_mod_cast h)
        have hbinade := (zpow_lt_zpow_iff_right₀ (by norm_num)).mp hlt
        omega
    have hspacing : spacing x ≤ (2 : Rat) ^ (54 : Int) :=
      zpow_le_zpow_right₀ (by norm_num) hexponent
    have hcast : (2 : Rat) ^ (54 : Int) = 2 ^ 54 := by norm_num
    have herror := nearest_error x
    have htriangle := abs_sub_abs_le_abs_sub (nearest x) x
    have hsup : (2 : Rat) ^ 55 ≤ supremum := by decide +kernel
    rw [hcast] at hspacing
    rw [abs_eq]
    linarith
  unfold round?
  dsimp only
  rw [dif_pos ⟨nearest_nearest x, hbound⟩]
  exact ⟨_, rfl, rfl⟩

end ProgramGraph
