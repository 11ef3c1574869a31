import Mathlib.Data.Rat.Floor
import Mathlib.Tactic.FieldSimp
import Mathlib.Tactic.Linarith
import ProgramGraph.Proofs.Nearest

/-! How far rounding moves a number, and that it moves none from beyond the safe integers to one of
them. -/
namespace ProgramGraph

theorem abs_eq (x : Rat) : x.abs = |x| := by
  rcases le_total 0 x with h | h
  · rw [abs_of_nonneg h, Rat.abs_of_nonneg h]
  · rw [abs_of_nonpos h, Rat.abs_of_nonpos h]

theorem roundEven_error (x : Rat) : |(roundEven x : Rat) - x| ≤ 1 / 2 := by
  have hlo : (x.floor : Rat) ≤ x := Int.floor_le x
  have hhi : x < x.floor + 1 := Int.lt_floor_add_one x
  have hm₀ : (0 : Rat) ≤ (x.floor % 2 : Int) := by
    exact_mod_cast Int.emod_nonneg x.floor (by decide)
  have hm₁ : ((x.floor % 2 : Int) : Rat) ≤ 1 := by
    exact_mod_cast (show x.floor % 2 ≤ 1 by omega)
  unfold roundEven
  dsimp only
  rw [abs_le]
  split
  · constructor <;> linarith
  · split
    · push_cast
      constructor <;> linarith
    · push_cast at hm₀ hm₁ ⊢
      constructor <;> linarith

theorem zpow_log2_le {n : Nat} (hn : n ≠ 0) : (2 : Rat) ^ (n.log2 : Int) ≤ n := by
  rw [zpow_natCast]
  exact_mod_cast Nat.log2_self_le hn

theorem lt_zpow_log2 (n : Nat) : (n : Rat) < (2 : Rat) ^ ((n.log2 : Int) + 1) := by
  have hcast : (n.log2 : Int) + 1 = ((n.log2 + 1 : Nat) : Int) := by push_cast; rfl
  rw [hcast, zpow_natCast]
  exact_mod_cast Nat.lt_log2_self

private theorem abs_mul_den (x : Rat) : |x| * x.den = x.num.natAbs := by
  have hden : (0 : Rat) ≤ x.den := by positivity
  calc
    |x| * x.den = |x * x.den| := by rw [abs_mul, abs_of_nonneg hden]
    _ = |(x.num : Rat)| := by rw [Rat.mul_den_eq_num]
    _ = x.num.natAbs := by rw [← abs_eq, abs_intCast]

theorem zpow_binade_le {x : Rat} (hx : x ≠ 0) : (2 : Rat) ^ binade x ≤ |x| := by
  have hnum := zpow_log2_le (Int.natAbs_ne_zero.mpr (Rat.num_ne_zero.mpr hx))
  have hden := lt_zpow_log2 x.den
  have hprod := abs_mul_den x
  unfold binade
  dsimp only
  rw [abs_eq]
  split
  · assumption
  · have hsplit : (2 : Rat) ^ (x.num.natAbs.log2 : Int) =
        (2 : Rat) ^ ((x.num.natAbs.log2 : Int) - x.den.log2 - 1) *
          (2 : Rat) ^ ((x.den.log2 : Int) + 1) := by
      rw [← zpow_add₀ (by norm_num)]
      congr 1
      ring
    by_contra hlt
    have hsmall : |x| < (2 : Rat) ^ ((x.num.natAbs.log2 : Int) - x.den.log2 - 1) := not_le.mp hlt
    have hpos : (0 : Rat) < x.den := by exact_mod_cast x.den_pos
    have hlow : |x| * x.den < (2 : Rat) ^ (x.num.natAbs.log2 : Int) := by
      rw [hsplit]
      exact mul_lt_mul'' hsmall hden (abs_nonneg x) hpos.le
    linarith

theorem lt_zpow_binade (x : Rat) : |x| < (2 : Rat) ^ (binade x + 1) := by
  have hnum := lt_zpow_log2 x.num.natAbs
  have hden := zpow_log2_le x.den_ne_zero
  have hprod := abs_mul_den x
  unfold binade
  dsimp only
  rw [abs_eq]
  split
  · have hsplit : (2 : Rat) ^ ((x.num.natAbs.log2 : Int) + 1) =
        (2 : Rat) ^ ((x.num.natAbs.log2 : Int) - x.den.log2 + 1) *
          (2 : Rat) ^ (x.den.log2 : Int) := by
      rw [← zpow_add₀ (by norm_num)]
      congr 1
      ring
    by_contra hlt
    have hlarge := not_lt.mp hlt
    have hhigh : (2 : Rat) ^ ((x.num.natAbs.log2 : Int) + 1) ≤ |x| * x.den := by
      rw [hsplit]
      exact mul_le_mul hlarge hden (zpow_pos (by norm_num) _).le (abs_nonneg x)
    linarith
  · rename_i hlt
    rw [sub_add_cancel]
    exact not_le.mp hlt

theorem le_binade {x : Rat} {k : Int} (h : (2 : Rat) ^ k ≤ |x|) : k ≤ binade x := by
  have hlt : (2 : Rat) ^ k < (2 : Rat) ^ (binade x + 1) := lt_of_le_of_lt h (lt_zpow_binade x)
  have hk := (zpow_lt_zpow_iff_right₀ (by norm_num)).mp hlt
  omega

/-- Rounding moves a number by half of the spacing at most. -/
theorem nearest_error (x : Rat) : |nearest x - x| ≤ spacing x / 2 := by
  have hs := spacing_pos x
  unfold nearest
  split
  · rename_i hx
    subst hx
    rw [sub_zero, abs_zero]
    linarith
  · have herror := mul_le_mul_of_nonneg_right (roundEven_error (x / spacing x)) hs.le
    have hscale : roundEven (x / spacing x) * spacing x - x =
        (roundEven (x / spacing x) - x / spacing x) * spacing x := by
      field_simp
    rw [hscale, abs_mul, abs_of_pos hs]
    linarith

/-- Where the spacing still shrinks with the numbers. -/
theorem spacing_eq {x : Rat} (h : (2 : Rat) ^ (-1022 : Int) ≤ |x|) :
    spacing x = (2 : Rat) ^ (binade x - 52) := by
  have hb := le_binade h
  unfold spacing
  rw [max_eq_left (by omega)]

theorem spacing_mul {x : Rat} (h : (2 : Rat) ^ (-1022 : Int) ≤ |x|) :
    spacing x * 2 ^ 52 = (2 : Rat) ^ binade x := by
  rw [spacing_eq h, ← zpow_natCast, ← zpow_add₀ (by norm_num)]
  congr 1
  push_cast
  ring

theorem spacing_mul_le {x : Rat} (h : (2 : Rat) ^ (-1022 : Int) ≤ |x|) :
    spacing x * 2 ^ 52 ≤ |x| := by
  have hx : x ≠ 0 := by
    rintro rfl
    have hpos : (0 : Rat) < (2 : Rat) ^ (-1022 : Int) := zpow_pos (by norm_num) _
    rw [abs_zero] at h
    linarith
  rw [spacing_mul h]
  exact zpow_binade_le hx

/-- Rounding does not cross a power of two. -/
theorem zpow_le_nearest {x : Rat} {k : Int} (hk : -1022 ≤ k) (h : (2 : Rat) ^ k ≤ |x|) :
    (2 : Rat) ^ k ≤ |nearest x| := by
  have hnormal : (2 : Rat) ^ (-1022 : Int) ≤ |x| := by
    have hmono : (2 : Rat) ^ (-1022 : Int) ≤ (2 : Rat) ^ k :=
      zpow_le_zpow_right₀ (by norm_num) hk
    exact hmono.trans h
  have hs := spacing_pos x
  have hx : x ≠ 0 := by
    rintro rfl
    have hpos : (0 : Rat) < (2 : Rat) ^ k := zpow_pos (by norm_num) _
    rw [abs_zero] at h
    linarith
  let y := x / spacing x
  have hy : (2 : Rat) ^ 52 ≤ |y| := by
    rw [abs_div, abs_of_pos hs, le_div_iff₀ hs, mul_comm]
    exact spacing_mul_le hnormal
  have hround : (2 : Int) ^ 52 ≤ |roundEven y| := by
    have herror := roundEven_error y
    have htriangle := abs_sub_abs_le_abs_sub y (roundEven y : Rat)
    rw [abs_sub_comm] at htriangle
    have hclose : (2 : Rat) ^ 52 - 1 < ((|roundEven y| : Int) : Rat) := by
      rw [Int.cast_abs]
      linarith
    have hlt : (2 : Int) ^ 52 - 1 < |roundEven y| := by exact_mod_cast hclose
    omega
  have hround' : (2 : Rat) ^ 52 ≤ |(roundEven y : Rat)| := by
    rw [← Int.cast_abs]
    exact_mod_cast hround
  have hbinade : (2 : Rat) ^ k ≤ (2 : Rat) ^ binade x :=
    zpow_le_zpow_right₀ (by norm_num) (le_binade h)
  calc
    (2 : Rat) ^ k ≤ spacing x * 2 ^ 52 := by rwa [spacing_mul hnormal]
    _ ≤ |(roundEven y : Rat)| * spacing x := by
      rw [mul_comm]
      exact mul_le_mul_of_nonneg_right hround' hs.le
    _ = |nearest x| := by
      unfold nearest
      rw [if_neg hx, abs_mul, abs_of_pos hs]

/-- No other integer is rounded to a safe one. -/
theorem eq_of_nearest_intCast {z n : Int} (h : nearest z = n) (hn : Binary64.isSafe n = true) :
    n = z := by
  have hlt := Binary64.lt_of_isSafe hn
  by_cases hz : z.natAbs < 2 ^ 53
  · rw [nearest_intCast hz] at h
    exact_mod_cast h.symm
  · have hlarge : (2 : Rat) ^ (53 : Int) ≤ |(z : Rat)| := by
      rw [← abs_eq, abs_intCast]
      exact_mod_cast not_lt.mp hz
    have hround := zpow_le_nearest (by norm_num) hlarge
    rw [h, ← abs_eq, abs_intCast] at hround
    have hcast : 2 ^ 53 ≤ n.natAbs := by exact_mod_cast hround
    omega

namespace Binary64

theorem value_of_round? {x : Rat} {y : Binary64} (h : round? x = some y) : y.value = nearest x := by
  unfold round? at h
  dsimp only at h
  split at h
  · obtain rfl := Option.some.inj h
    rfl
  · cases h

/-- An integer that is rounded to a safe one is that integer. -/
theorem eq_of_round?_intCast {z n : Int} {x : Binary64} (h : round? z = some x)
    (hx : x.toInt? = some n) (hn : isSafe n = true) : n = z := by
  have hvalue := value_of_toInt? hx
  rw [value_of_round? h] at hvalue
  exact eq_of_nearest_intCast hvalue hn

end Binary64

theorem floor_div_intCast {a b : Int} (hb : b ≠ 0) : ((a : Rat) / b).floor = a.fdiv b := by
  have hpos : ∀ {a b : Int}, 0 < b → ((a : Rat) / b).floor = a.fdiv b := by
    intro a b hb
    have hcast : (b : Rat) = (b.natAbs : Rat) := by
      rw [← Int.cast_natCast, Int.natAbs_of_nonneg hb.le]
    have hfloor := Rat.floor_intCast_div_natCast a b.natAbs
    rw [Int.natAbs_of_nonneg hb.le, ← hcast] at hfloor
    rw [Int.fdiv_eq_ediv_of_nonneg a hb.le]
    exact hfloor
  rcases lt_or_gt_of_ne hb with h | h
  · have hneg := hpos (a := -a) (b := -b) (by omega)
    rwa [Int.neg_fdiv_neg, Int.cast_neg, Int.cast_neg, neg_div_neg_eq] at hneg
  · exact hpos h

theorem abs_intCast_lt {n : Int} (h : Binary64.isSafe n = true) : |(n : Rat)| < 2 ^ 53 := by
  rw [← abs_eq, abs_intCast]
  exact_mod_cast Binary64.lt_of_isSafe h

/-- A move by less than the distance to the integers around a number keeps its floor. -/
private theorem floor_eq_of_abs_lt {x y : Rat} (hlow : |y - x| < |x - x.floor|)
    (hhigh : |y - x| < |x - (x.floor + 1)|) : y.floor = x.floor := by
  have hlo : (x.floor : Rat) ≤ x := Int.floor_le x
  have hhi : x < x.floor + 1 := Int.lt_floor_add_one x
  rw [abs_of_nonneg (sub_nonneg.mpr hlo)] at hlow
  rw [abs_of_neg (sub_neg.mpr hhi)] at hhigh
  have hle : (x.floor : Rat) ≤ y := by
    have h := (abs_lt.mp hlow).1
    linarith
  have hlt : y < x.floor + 1 := by
    have h := (abs_lt.mp hhigh).2
    linarith
  exact Int.floor_eq_iff.mpr ⟨hle, hlt⟩

section
variable {a b : Int}

private theorem abs_div_mul (hb : b ≠ 0) : |(a : Rat) / b| * |(b : Rat)| = |(a : Rat)| := by
  rw [← abs_mul, div_mul_cancel₀ _ (by exact_mod_cast hb)]

/-- Quotients by `b` are at least `1 / |b|` away from the integers that they are not. -/
private theorem one_le_distance_mul (hb : b ≠ 0) {j : Int} (hj : (a : Rat) / b ≠ j) :
    1 ≤ |(a : Rat) / b - j| * |(b : Rat)| := by
  have hb0 : (b : Rat) ≠ 0 := by exact_mod_cast hb
  have hmultiple : ((a : Rat) / b - j) * b = ((a - j * b : Int) : Rat) := by
    push_cast
    rw [sub_mul, div_mul_cancel₀ _ hb0]
  have hnonzero : a - j * b ≠ 0 := by
    intro hzero
    rw [hzero, Int.cast_zero] at hmultiple
    rcases mul_eq_zero.mp hmultiple with h | h
    · exact hj (sub_eq_zero.mp h)
    · exact hb0 h
  rw [← abs_mul, hmultiple, ← abs_eq, abs_intCast]
  exact_mod_cast Int.natAbs_pos.mpr hnonzero

/-- Rounding moves a quotient by `b` by less than `1 / |b|`. -/
private theorem nearest_div_error (ha : Binary64.isSafe a = true) (hb : Binary64.isSafe b = true)
    (ha0 : a ≠ 0) (hb0 : b ≠ 0) :
    |nearest ((a : Rat) / b) - (a : Rat) / b| * |(b : Rat)| < 1 := by
  have hbound := abs_intCast_lt hb
  have hpos : 0 < |(b : Rat)| := abs_pos.mpr (by exact_mod_cast hb0)
  have hquotient := abs_div_mul (a := a) hb0
  have hone : (1 : Rat) ≤ |(a : Rat)| := by
    rw [← abs_eq, abs_intCast]
    exact_mod_cast Int.natAbs_pos.mpr ha0
  have hnormal : (2 : Rat) ^ (-1022 : Int) ≤ |(a : Rat) / b| := by
    have hmono : (2 : Rat) ^ (-1022 : Int) ≤ (2 : Rat) ^ (-53 : Int) :=
      zpow_le_zpow_right₀ (by norm_num) (by norm_num)
    have htiny : (2 : Rat) ^ (-53 : Int) * 2 ^ 53 = 1 := by norm_num
    refine hmono.trans (not_lt.mp fun hlt => ?_)
    have hprod : |(a : Rat) / b| * |(b : Rat)| < (2 : Rat) ^ (-53 : Int) * 2 ^ 53 :=
      mul_lt_mul'' hlt hbound (abs_nonneg _) hpos.le
    linarith
  have hround := mul_le_mul_of_nonneg_right (nearest_error ((a : Rat) / b)) hpos.le
  have hspacing := mul_le_mul_of_nonneg_right (spacing_mul_le hnormal) hpos.le
  have hsmall := abs_intCast_lt ha
  linarith

/-- The floor of a rounded quotient of safe integers is the floor of their quotient. -/
theorem floor_nearest_div (ha : Binary64.isSafe a = true) (hb : Binary64.isSafe b = true)
    (hb0 : b ≠ 0) : (nearest ((a : Rat) / b)).floor = a.fdiv b := by
  rw [← floor_div_intCast hb0]
  have hpos : 0 < |(b : Rat)| := abs_pos.mpr (by exact_mod_cast hb0)
  by_cases hx : (a : Rat) / b = ((a : Rat) / b).floor
  · -- A quotient that is an integer is no larger than `a`, and so it is not rounded at all.
    have hone : 1 ≤ |(b : Rat)| := by
      rw [← abs_eq, abs_intCast]
      exact_mod_cast Int.natAbs_pos.mpr hb0
    have hle : |(a : Rat) / b| ≤ |(a : Rat) / b| * |(b : Rat)| :=
      le_mul_of_one_le_right (abs_nonneg _) hone
    have hlt := abs_intCast_lt ha
    rw [abs_div_mul hb0, hx, ← abs_eq, abs_intCast] at hle
    have hsmall : ((a : Rat) / b).floor.natAbs < 2 ^ 53 := by
      exact_mod_cast lt_of_le_of_lt hle hlt
    rw [hx, nearest_intCast hsmall, Rat.floor_intCast]
  · have ha0 : a ≠ 0 := by
      rintro rfl
      exact hx (by rw [Int.cast_zero, zero_div]; rfl)
    have herror := nearest_div_error ha hb ha0 hb0
    have hcloser : ∀ {j : Int}, (a : Rat) / b ≠ j →
        |nearest ((a : Rat) / b) - (a : Rat) / b| < |(a : Rat) / b - j| := fun hj =>
      lt_of_mul_lt_mul_right (lt_of_lt_of_le herror (one_le_distance_mul hb0 hj)) hpos.le
    have hhi : (a : Rat) / b < ((a : Rat) / b).floor + 1 := Int.lt_floor_add_one _
    have hnext := hcloser (j := ((a : Rat) / b).floor + 1) (by push_cast; exact hhi.ne)
    push_cast at hnext
    exact floor_eq_of_abs_lt (hcloser hx) hnext

end

end ProgramGraph
