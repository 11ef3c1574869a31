import Mathlib.Algebra.Order.Field.Rat
import ProgramGraph.Json.Basic
import ProgramGraph.Shape.Checked

/-! Integers as binary64 numbers: small ones are exact, positive ones stay positive. -/
namespace ProgramGraph

theorem abs_intCast (n : Int) : (n : Rat).abs = (n.natAbs : Rat) := by
  have hcast : ((n.natAbs : Int) : Rat) = (n.natAbs : Rat) := Rat.intCast_natCast _
  rcases Int.le_total 0 n with h | h
  · rw [Rat.abs_of_nonneg (Rat.intCast_nonneg.mpr h), ← hcast, Int.natAbs_of_nonneg h]
  · rw [Rat.abs_of_nonpos (Rat.intCast_nonpos.mpr h), ← hcast, Int.ofNat_natAbs_of_nonpos h,
      Rat.intCast_neg]

theorem binade_intCast {n : Int} (h : n ≠ 0) : binade n = (n.natAbs.log2 : Int) := by
  have hle : (2 : Rat) ^ (n.natAbs.log2 : Int) ≤ (n : Rat).abs := by
    rw [abs_intCast, Rat.zpow_natCast]
    have hlog := Nat.log2_self_le (Int.natAbs_ne_zero.mpr h)
    have hcast : ((2 ^ n.natAbs.log2 : Nat) : Rat) = (2 : Rat) ^ n.natAbs.log2 :=
      Rat.natCast_pow 2 _
    rw [← hcast]
    exact Rat.natCast_le_natCast.mpr hlog
  have hone : Nat.log2 1 = 0 := by decide
  unfold binade
  simp only [Rat.num_intCast, Rat.den_intCast, hone, Int.natCast_zero, Int.sub_zero]
  exact if_pos hle

theorem spacing_intCast {n : Int} (h : n ≠ 0) :
    spacing n = (2 : Rat) ^ ((n.natAbs.log2 : Int) - 52) := by
  unfold spacing
  rw [binade_intCast h, Int.max_eq_left (by omega)]

theorem spacing_pos (x : Rat) : 0 < spacing x := Rat.zpow_pos (by decide)

theorem roundEven_intCast (k : Int) : roundEven k = k := by
  unfold roundEven
  simp only [Rat.floor_intCast, Rat.sub_self]
  exact if_pos (by decide +kernel)

theorem floor_le_roundEven (x : Rat) : x.floor ≤ roundEven x := by
  unfold roundEven
  dsimp only
  split
  · exact Int.le_refl _
  · split
    · omega
    · have := Int.emod_nonneg x.floor (show (2 : Int) ≠ 0 by decide)
      omega

/-- Integers of up to 53 bits are numbers. -/
theorem nearest_intCast {n : Int} (h : n.natAbs < 2 ^ 53) : nearest n = n := by
  unfold nearest
  by_cases hn : n = 0
  · subst hn
    exact if_pos rfl
  · rw [if_neg (fun h => hn (Rat.intCast_eq_zero_iff.mp h))]
    have hlog : n.natAbs.log2 < 53 := (Nat.log2_lt (Int.natAbs_ne_zero.mpr hn)).mpr h
    let m := 52 - n.natAbs.log2
    have hexp : ((n.natAbs.log2 : Int) - 52) + (m : Int) = 0 := by omega
    have hunit : spacing n * (2 : Rat) ^ m = 1 := by
      rw [spacing_intCast hn, ← Rat.zpow_natCast, ← Rat.zpow_add (by decide), hexp, Rat.zpow_zero]
    have hquotient : (n : Rat) / spacing n = ((n * 2 ^ m : Int) : Rat) := by
      rw [Rat.intCast_mul, Rat.intCast_pow, Rat.intCast_ofNat, Rat.div_def,
        Rat.inv_eq_of_mul_eq_one hunit]
    rw [hquotient, roundEven_intCast, Rat.intCast_mul, Rat.intCast_pow, Rat.intCast_ofNat,
      Rat.mul_assoc, Rat.mul_comm _ (spacing _), hunit, Rat.mul_one]

theorem one_le_nearest_intCast {n : Int} (h : 1 ≤ n) : 1 ≤ nearest n := by
  have hn : n ≠ 0 := by omega
  have hs := spacing_pos n
  have hpow : (2 : Rat) ^ (n.natAbs.log2 : Int) = ((2 ^ 52 : Int) : Rat) * spacing n := by
    rw [spacing_intCast hn, Rat.intCast_pow, Rat.intCast_ofNat, ← Rat.zpow_natCast 2 52,
      ← Rat.zpow_add (by decide)]
    congr 1
    omega
  have hle : ((2 ^ n.natAbs.log2 : Nat) : Rat) ≤ (n : Rat) := by
    have hlog := Nat.log2_self_le (Int.natAbs_ne_zero.mpr hn)
    rw [← Int.natAbs_of_nonneg (show 0 ≤ n by omega), Rat.intCast_natCast]
    exact Rat.natCast_le_natCast.mpr hlog
  have hone : (1 : Rat) ≤ ((2 ^ n.natAbs.log2 : Nat) : Rat) :=
    Rat.natCast_le_natCast.mpr Nat.one_le_two_pow
  have hcast : ((2 ^ n.natAbs.log2 : Nat) : Rat) = (2 : Rat) ^ (n.natAbs.log2 : Int) := by
    rw [Rat.zpow_natCast]
    exact Rat.natCast_pow 2 _
  rw [hcast, hpow] at hle hone
  have hquotient : ((2 ^ 52 : Int) : Rat) ≤ (n : Rat) / spacing n :=
    Rat.le_of_mul_le_mul_right (by rwa [Rat.div_mul_cancel (ne_of_gt hs)]) hs
  have hround : (2 ^ 52 : Int) ≤ roundEven (n / spacing n) :=
    Int.le_trans (Rat.le_floor_iff.mpr hquotient) (floor_le_roundEven _)
  unfold nearest
  rw [if_neg (fun h => hn (Rat.intCast_eq_zero_iff.mp h))]
  exact Rat.le_trans hone
    (Rat.mul_le_mul_of_nonneg_right (Rat.intCast_le_intCast.mpr hround) (Rat.le_of_lt hs))

theorem one_le_supremum : 1 ≤ supremum := by decide +kernel

namespace Binary64

theorem isSafe_iff {n : Int} : isSafe n = true ↔ -greatestSafe ≤ n ∧ n ≤ greatestSafe := by
  unfold isSafe greatestSafe
  simp only [decide_eq_true_eq]
  omega

theorem lt_of_isSafe {n : Int} (h : isSafe n = true) : n.natAbs < 2 ^ 53 := by
  unfold isSafe greatestSafe at h
  simp only [decide_eq_true_eq] at h
  omega

/-- A safe integer, as a number. -/
def ofSafe (n : Int) (h : isSafe n = true) : Binary64 where
  value := n
  nearest_value := nearest_intCast (lt_of_isSafe h)
  abs_value_lt := by
    have hsup : ((2 ^ 53 : Nat) : Rat) ≤ supremum := by decide +kernel
    rw [abs_intCast]
    exact lt_of_lt_of_le (Rat.natCast_lt_natCast.mpr (lt_of_isSafe h)) hsup

/-- Safe integers are told apart: rounding keeps them. -/
theorem round?_of_isSafe {n : Int} (h : isSafe n = true) :
    ∃ x, round? n = some x ∧ x.value = n := by
  refine ⟨ofSafe n h, ?_, rfl⟩
  unfold round?
  simp only [nearest_intCast (lt_of_isSafe h)]
  exact dif_pos ⟨trivial, (ofSafe n h).abs_value_lt⟩

theorem toInt?_of_value {x : Binary64} {n : Int} (h : x.value = n) : x.toInt? = some n := by
  unfold toInt? isInteger
  rw [h]
  rfl

theorem value_of_toInt? {x : Binary64} {n : Int} (h : x.toInt? = some n) : x.value = n := by
  unfold toInt? isInteger at h
  split at h
  · rename_i hden
    obtain rfl := Option.some.inj h
    exact (Rat.den_eq_one_iff _).mp (by simpa using hden) |>.symm
  · cases h

end Binary64

namespace Shape

theorem int_ofInt {n : Int} (h : Binary64.isSafe n = true) : int (some (.ofInt n)) = .ok n := by
  obtain ⟨x, hx, hv⟩ := Binary64.round?_of_isSafe h
  unfold Json.ofInt Binary64.ofInt?
  rw [hx]
  simp only [int, Binary64.toInt?_of_value hv, h, if_true]

/-- A text with a character is as long as is asked for, however long it is. -/
theorem filled_string {s : String} (h : s ≠ "") : filled (some (.string s)) = .ok s := by
  have hlength : (1 : Int) ≤ s.length := by
    have := mt String.length_eq_zero_iff.mp h
    omega
  have hamount : (amount? (.ofInt s.length)).any (1 ≤ ·) = true := by
    unfold Json.ofInt Binary64.ofInt? Binary64.round?
    dsimp only
    split
    · rename_i x hx
      split at hx
      · obtain rfl := Option.some.inj hx
        simpa [amount?] using one_le_nearest_intCast hlength
      · cases hx
    · have hsign : decide ((s.length : Int) < 0) = false := by simp
      simp only [amount?, hsign, Option.any_some, decide_eq_true_eq]
      exact one_le_supremum
  unfold filled nonEmpty
  simp only [length?, hamount, if_true]
  rfl

end Shape
end ProgramGraph
