import ProgramGraph.Number.Decimal
import ProgramGraph.Proofs.Literals.Closest

/-! The search for the fewest digits: on each grid of tens it finds what reads back, and with
seventeen digits there is always something to find. -/
namespace ProgramGraph

theorem roundEven_eq_floor_or (x : Rat) : roundEven x = x.floor ∨ roundEven x = x.floor + 1 := by
  unfold roundEven
  dsimp only
  split_ifs <;> omega

namespace Decimal

theorem lt_pow_length_digitsOf (n : Nat) : n < 10 ^ (digitsOf n).length :=
  (Nat.length_toDigits_le_iff (by omega) Nat.length_toDigits_pos).mp le_rfl

theorem pow_length_digitsOf_le {n : Nat} (hn : 0 < n) : 10 ^ ((digitsOf n).length - 1) ≤ n := by
  by_contra hlt
  by_cases hone : (digitsOf n).length = 1
  · rw [hone] at hlt
    omega
  · have hpos : 0 < (digitsOf n).length := Nat.length_toDigits_pos
    have hle := (Nat.length_toDigits_le_iff (b := 10) (k := (digitsOf n).length - 1)
      (by omega) (by omega)).mpr (not_le.mp hlt)
    change (digitsOf n).length ≤ (digitsOf n).length - 1 at hle
    omega

section
variable {x unit : Rat}

/-- The place is that of the first digit. -/
theorem place_bounds (hx : 0 < x) :
    (10 : Rat) ^ (place x - 1) ≤ x ∧ x < (10 : Rat) ^ place x := by
  let a := (digitsOf x.num.natAbs).length
  let b := (digitsOf x.den).length
  have hnum : 0 < x.num := Rat.num_pos.mpr hx
  have ha : 0 < a := Nat.length_toDigits_pos
  have hb : 0 < b := Nat.length_toDigits_pos
  have hvalue : x * x.den = x.num.natAbs := by
    rw [Rat.mul_den_eq_num, ← Int.cast_natCast, Int.natAbs_of_nonneg hnum.le]
  have hscale : ∀ (e : Int) (c d : Nat), e + c = d → (10 : Rat) ^ e * 10 ^ c = 10 ^ d := by
    intro e c d h
    rw [← zpow_natCast, ← zpow_natCast, ← zpow_add₀ (by norm_num), h]
  have hlow : (10 : Rat) ^ ((a : Int) - b - 1) ≤ x := by
    have hnumber : ((10 ^ (a - 1) : Nat) : Rat) ≤ x.num.natAbs := by
      exact_mod_cast pow_length_digitsOf_le (Int.natAbs_pos.mpr hnum.ne')
    have hden : ((x.den : Nat) : Rat) ≤ ((10 ^ b : Nat) : Rat) := by
      exact_mod_cast (lt_pow_length_digitsOf x.den).le
    have hpow := hscale ((a : Int) - b - 1) b (a - 1) (by omega)
    push_cast at hnumber hden
    refine le_of_mul_le_mul_right ?_ (show (0 : Rat) < 10 ^ b by positivity)
    calc
      (10 : Rat) ^ ((a : Int) - b - 1) * 10 ^ b = 10 ^ (a - 1) := hpow
      _ ≤ x * x.den := hvalue ▸ hnumber
      _ ≤ x * 10 ^ b := mul_le_mul_of_nonneg_left hden hx.le
  have hhigh : x < (10 : Rat) ^ ((a : Int) - b + 1) := by
    have hnumber : ((x.num.natAbs : Nat) : Rat) < ((10 ^ a : Nat) : Rat) := by
      exact_mod_cast lt_pow_length_digitsOf x.num.natAbs
    have hden : ((10 ^ (b - 1) : Nat) : Rat) ≤ x.den := by
      exact_mod_cast pow_length_digitsOf_le x.den_pos
    have hpow := hscale ((a : Int) - b + 1) (b - 1) a (by omega)
    push_cast at hnumber hden
    refine lt_of_mul_lt_mul_right ?_ (show (0 : Rat) ≤ 10 ^ (b - 1) by positivity)
    calc
      x * 10 ^ (b - 1) ≤ x * x.den := mul_le_mul_of_nonneg_left hden hx.le
      _ < 10 ^ a := hvalue ▸ hnumber
      _ = (10 : Rat) ^ ((a : Int) - b + 1) * 10 ^ (b - 1) := hpow.symm
  unfold place
  dsimp only
  split
  · exact ⟨hlow, ‹_›⟩
  · rw [add_sub_cancel_right]
    exact ⟨not_lt.mp ‹_›, hhigh⟩

/-- What is found on a grid reads back. -/
theorem of_onGrid? (hquotient : 0 ≤ x / unit) {m : Nat} (h : onGrid? x unit = some m) :
    nearest (m * unit) = x := by
  unfold onGrid? at h
  dsimp only at h
  split at h
  · rename_i hlow hhigh
    have hfloor : 0 ≤ (x / unit).floor := Int.floor_nonneg.mpr hquotient
    obtain rfl := Option.some.inj h
    rcases roundEven_eq_floor_or (x / unit) with heven | heven
    · rw [heven]
      exact of_decide_eq_true hlow
    · rw [heven, show ((x / unit).floor + 1).toNat = (x / unit).floor.toNat + 1 by omega]
      exact of_decide_eq_true hhigh
  · rename_i hlow _
    obtain rfl := Option.some.inj h
    exact of_decide_eq_true hlow
  · rename_i _ hhigh
    obtain rfl := Option.some.inj h
    exact of_decide_eq_true hhigh
  · cases h

/-- If anything on a grid reads back, something is found there. -/
theorem onGrid?_isSome (hunit : 0 < unit) (hpos : 0 ≤ x) {k : Nat} (h : nearest (k * unit) = x) :
    (onGrid? x unit).isSome = true := by
  have hx : nearest x = x := by rw [← h, nearest_nearest]
  let low := (x / unit).floor.toNat
  have hfloor : ((x / unit).floor : Rat) = low := by
    have hnonneg : 0 ≤ (x / unit).floor := Int.floor_nonneg.mpr (div_nonneg hpos hunit.le)
    exact_mod_cast (Int.toNat_of_nonneg hnonneg).symm
  -- The numbers that read back lie without gaps around `x`.
  have hreads : nearest (low * unit) = x ∨ nearest ((low + 1 : Nat) * unit) = x := by
    rcases le_or_gt k low with hle | hgt
    · apply Or.inl
      have hk : (k : Rat) * unit ≤ low * unit :=
        mul_le_mul_of_nonneg_right (by exact_mod_cast hle) hunit.le
      have hlow : (low : Rat) * unit ≤ x :=
        (le_div_iff₀ hunit).mp (hfloor ▸ Int.floor_le (x / unit))
      exact le_antisymm (hx ▸ nearest_mono hlow) (h ▸ nearest_mono hk)
    · apply Or.inr
      have hk : ((low + 1 : Nat) : Rat) * unit ≤ k * unit :=
        mul_le_mul_of_nonneg_right (by exact_mod_cast hgt) hunit.le
      have hhigh : x ≤ ((low + 1 : Nat) : Rat) * unit := by
        have hlt := Int.lt_floor_add_one (x / unit)
        apply ((div_le_iff₀ hunit).mp _)
        push_cast
        exact hfloor ▸ hlt.le
      exact le_antisymm (h ▸ nearest_mono hk) (hx ▸ nearest_mono hhigh)
  unfold onGrid?
  dsimp only
  rcases hreads with hreads | hreads <;> rw [decide_eq_true hreads] <;> split <;> simp_all

/-- A number on the grid is found as itself. -/
theorem onGrid?_of_mul_eq (hunit : 0 < unit) (hx : nearest x = x) {c : Nat} (h : c * unit = x) :
    onGrid? x unit = some c := by
  have hquotient : x / unit = (c : Int) := by
    rw [div_eq_iff hunit.ne', ← h]
    rfl
  have hself : nearest (c * unit) = x := h ▸ hx
  unfold onGrid?
  dsimp only
  rw [hquotient, Rat.floor_intCast, Int.toNat_natCast, roundEven_intCast, Int.toNat_natCast,
    decide_eq_true hself]
  split <;> simp_all

/-- Seventeen digits tell a number apart from all others. -/
theorem onGrid?_seventeen (hunit : 0 < unit) (hx : nearest x = x) (hdigits : 10 ^ 16 * unit ≤ x) :
    (onGrid? x unit).isSome = true := by
  have hpos : 0 < x := (mul_pos (by norm_num) hunit).trans_le hdigits
  have hnonneg : 0 ≤ roundEven (x / unit) := by
    have hfloor : 0 ≤ (x / unit).floor := Int.floor_nonneg.mpr (div_nonneg hpos.le hunit.le)
    rcases roundEven_eq_floor_or (x / unit) with heven | heven <;> omega
  have hcast : ((roundEven (x / unit)).toNat : Rat) = roundEven (x / unit) := by
    exact_mod_cast Int.toNat_of_nonneg hnonneg
  apply onGrid?_isSome hunit hpos.le (k := (roundEven (x / unit)).toNat)
  apply nearest_of_close hx hpos
  have herror := roundEven_error (x / unit)
  have hscale : |roundEven (x / unit) * unit - x| = |roundEven (x / unit) - x / unit| * unit := by
    rw [← abs_of_pos hunit, ← abs_mul, abs_of_pos hunit, sub_mul, div_mul_cancel₀ _ hunit.ne']
  rw [hcast, hscale]
  have hhalf := mul_le_mul_of_nonneg_right herror hunit.le
  linarith

/-- A search through a range ends at the first number that it accepts. -/
private theorem exists_first_of_findSome?_range {β : Type} {f : Nat → Option β} {bound i : Nat}
    (hi : i < bound) (h : (f i).isSome = true) :
    ∃ k, (∀ j < k, f j = none) ∧ ∃ b, f k = some b ∧ (List.range bound).findSome? f = some b := by
  have hmem : i ∈ List.range bound := List.mem_range.mpr hi
  obtain ⟨b, hfound⟩ := Option.isSome_iff_exists.mp (List.findSome?_isSome_iff.mpr ⟨i, hmem, h⟩)
  obtain ⟨before, k, after, hrange, hk, hbefore⟩ := List.findSome?_eq_some_iff.mp hfound
  have hlength : before.length < bound := by
    have hall := congrArg List.length hrange
    rw [List.length_range, List.length_append, List.length_cons] at hall
    omega
  have hindex : k = before.length := by
    have hget := congrArg (fun l => l[before.length]?) hrange
    simp only [List.getElem?_range hlength,
      List.getElem?_append_right (Nat.le_refl _), Nat.sub_self, List.getElem?_cons_zero] at hget
    exact (Option.some.inj hget).symm
  refine ⟨k, fun j hj => hbefore j ?_, b, hk, hfound⟩
  have hget := congrArg (fun l => l[j]?) hrange
  simp only [List.getElem?_range (show j < bound by omega),
    List.getElem?_append_left (show j < before.length by omega)] at hget
  exact List.mem_of_getElem? hget.symm

/-- The digits are found on the coarsest grid on which anything reads back. -/
theorem shortest_eq (hx : nearest x = x) (hpos : 0 < x) :
    ∃ k m : Nat, onGrid? x ((10 : Rat) ^ (place x - (k + 1 : Nat))) = some m ∧
      (∀ i < k, onGrid? x ((10 : Rat) ^ (place x - (i + 1 : Nat))) = none) ∧
      shortest x = ⟨dropTrailingZeros (digitsOf m),
        place x - (k + 1 : Nat) + (digitsOf m).length⟩ := by
  let f (k : Nat) : Option (Nat × Nat) :=
    (onGrid? x ((10 : Rat) ^ (place x - (k + 1 : Nat)))).map (·, k + 1)
  have hlast : (f 16).isSome = true := by
    have hdigits : 10 ^ 16 * (10 : Rat) ^ (place x - (16 + 1 : Nat)) ≤ x := by
      refine le_of_eq_of_le ?_ (place_bounds hpos).1
      rw [← zpow_natCast, ← zpow_add₀ (by norm_num)]
      congr 1
      push_cast
      ring
    simp only [f, Option.isSome_map]
    exact onGrid?_seventeen (zpow_pos (by norm_num) _) hx hdigits
  obtain ⟨k, hbefore, found, hk, hfound⟩ :=
    exists_first_of_findSome?_range (show 16 < 17 by omega) hlast
  obtain ⟨m, hm, rfl⟩ := Option.map_eq_some_iff.mp hk
  refine ⟨k, m, hm, fun i hi => Option.map_eq_none_iff.mp (hbefore i hi), ?_⟩
  have hsearch : (List.range 17).findSome? (fun k =>
      (onGrid? x ((10 : Rat) ^ (place x - (k + 1 : Nat)))).map (·, k + 1)) = some (m, k + 1) :=
    hfound
  unfold shortest
  dsimp only
  rw [hsearch, Option.getD_some]

end
end Decimal
end ProgramGraph
