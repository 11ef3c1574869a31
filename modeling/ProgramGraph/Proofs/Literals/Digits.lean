import Mathlib.Data.List.TakeWhile
import ProgramGraph.Number.Notation
import ProgramGraph.Proofs.Literals.Rounding
import ProgramGraph.Proofs.Literals.Shortest

/-! The digits of integers: which of them are written, and where they are all the integer's own. -/
namespace ProgramGraph

namespace Decimal

theorem toDigits_mul_pow {m : Nat} (hm : 0 < m) (j : Nat) :
    digitsOf (m * 10 ^ j) = digitsOf m ++ List.replicate j '0' := by
  induction j with
  | zero => simp
  | succ j ih =>
    have hpos : 0 < m * 10 ^ j := by positivity
    have happend := Nat.toDigits_append_toDigits (b := 10) (d := 0) (by omega) hpos (by omega)
    have hproduct : 10 * (m * 10 ^ j) + 0 = m * 10 ^ (j + 1) := by
      rw [pow_succ]
      ring
    rw [hproduct, Nat.toDigits_zero] at happend
    unfold digitsOf at ih ⊢
    rw [← happend, ih, List.replicate_succ', List.append_assoc]

/-- Zeros that are dropped can be put back. -/
theorem dropTrailingZeros_append (ds : List Char) :
    (dropTrailingZeros ds).length ≤ ds.length ∧
      dropTrailingZeros ds ++ List.replicate (ds.length - (dropTrailingZeros ds).length) '0' = ds := by
  have hsplit := congrArg List.reverse
    (List.takeWhile_append_dropWhile (p := (· == '0')) (l := ds.reverse))
  rw [List.reverse_append, List.reverse_reverse] at hsplit
  change dropTrailingZeros ds ++ (ds.reverse.takeWhile (· == '0')).reverse = ds at hsplit
  have hlength := congrArg List.length hsplit
  rw [List.length_append] at hlength
  refine ⟨by omega, ?_⟩
  have hzeros : (ds.reverse.takeWhile (· == '0')).reverse =
      List.replicate (ds.length - (dropTrailingZeros ds).length) '0' := by
    refine List.eq_replicate_iff.mpr ⟨by omega, fun c hc => ?_⟩
    have hmem := List.mem_takeWhile_imp (List.mem_reverse.mp hc)
    simpa using hmem
  rw [← hzeros, hsplit]

/-- Powers of ten up to the 22nd are numbers. -/
theorem nearest_pow_ten {p : Nat} (hp : p ≤ 22) : nearest ((10 : Rat) ^ p) = 10 ^ p := by
  have hsplit : (10 : Rat) ^ p = ((5 ^ p : Int) : Rat) * 2 ^ (p : Int) := by
    rw [zpow_natCast, Int.cast_pow, Int.cast_ofNat, ← mul_pow]
    norm_num
  have hbits : (5 ^ p : Int).natAbs ≤ 2 ^ 53 := by
    rw [Int.natAbs_pow]
    exact (Nat.pow_le_pow_right (by decide) hp).trans (by decide)
  rw [hsplit]
  exact nearest_mul_zpow hbits (by omega)

/-- The digits of `m` and `j` zeros read back to `n`, with as many zeros as can be; they are those of
`n` if it ends in that many. -/
structure Written (n m j : Nat) : Prop where
  reads : nearest ((m : Rat) * 10 ^ j) = n
  exact : 10 ^ j ∣ n → m * 10 ^ j = n
  coarsest : ∀ i k : Nat, 10 ^ i ≤ n → nearest ((k : Rat) * 10 ^ i) = n → i ≤ j

section
variable {n m j : Nat}

theorem written_zero : Written 0 0 0 where
  reads := by
    rw [Nat.cast_zero, zero_mul]
    rfl
  exact _ := rfl
  coarsest i k hi _ := absurd hi (by simp)

/-- The search for the digits of a positive integer ends on a grid of integers. -/
theorem exists_written (hn : nearest (n : Rat) = n) (hpos : 0 < n) :
    ∃ m j : Nat, Written n m j ∧
      shortest n = ⟨dropTrailingZeros (digitsOf m), (j : Int) + (digitsOf m).length⟩ := by
  have hvalue : (0 : Rat) < n := by exact_mod_cast hpos
  obtain ⟨k, m, hm, hbefore, hshortest⟩ := shortest_eq hn hvalue
  have hhigh := (place_bounds hvalue).2
  obtain ⟨p, hp⟩ : ∃ p : Nat, place (n : Rat) = (p + 1 : Nat) := by
    have hone : (10 : Rat) ^ (0 : Int) < (10 : Rat) ^ place (n : Rat) := by
      refine lt_of_le_of_lt ?_ hhigh
      exact_mod_cast hpos
    have hplace := (zpow_lt_zpow_iff_right₀ (by norm_num)).mp hone
    exact ⟨(place (n : Rat)).toNat - 1, by omega⟩
  have hunit : ∀ i ≤ p, (10 : Rat) ^ (place (n : Rat) - (i + 1 : Nat)) = 10 ^ (p - i) := by
    intro i hi
    rw [hp, ← zpow_natCast]
    congr 1
    omega
  have htens : ∀ i : Nat, (0 : Rat) < 10 ^ i := fun i => by positivity
  have hk : k ≤ p := by
    by_contra hlt
    have hself : onGrid? (n : Rat) (10 ^ (p - p)) = some n :=
      onGrid?_of_mul_eq (htens _) hn (by rw [Nat.sub_self, pow_zero, mul_one])
    rw [← hunit p le_rfl, hbefore p (not_le.mp hlt)] at hself
    cases hself
  rw [hunit k hk] at hm
  refine ⟨m, p - k, ?_, ?_⟩
  · constructor
    case reads => exact of_onGrid? (div_nonneg hvalue.le (htens _).le) hm
    case exact =>
      rintro ⟨c, hc⟩
      have hfound := onGrid?_of_mul_eq (x := n) (htens (p - k)) hn (c := c) (by
        rw [hc, mul_comm]
        push_cast
        rfl)
      rw [hm] at hfound
      rw [hc, Option.some.inj hfound, mul_comm]
    case coarsest =>
      intro i c hi hread
      have hlt : 10 ^ i < 10 ^ (p + 1) := by
        rw [hp, zpow_natCast] at hhigh
        exact hi.trans_lt (by exact_mod_cast hhigh)
      have hip : i < p + 1 := (Nat.pow_lt_pow_iff_right (by decide)).mp hlt
      by_contra hgt
      have hfound := onGrid?_isSome (htens i) hvalue.le hread
      have hnone := hbefore (p - i) (by omega)
      rw [hunit (p - i) (by omega), Nat.sub_sub_self (by omega)] at hnone
      rw [hnone] at hfound
      cases hfound
  · rw [hshortest, hp]
    congr 2
    omega

/-- Up to the 22nd power of ten, what is written has as many places as the integer. -/
theorem Written.pow_le_iff (h : Written n m j) {p : Nat} (hp : p ≤ 22) :
    10 ^ p ≤ m * 10 ^ j ↔ 10 ^ p ≤ n := by
  have hpower := nearest_pow_ten hp
  constructor
  · intro hle
    have hcast : (10 : Rat) ^ p ≤ (m : Rat) * 10 ^ j := by exact_mod_cast hle
    have hmono := nearest_mono hcast
    rw [hpower, h.reads] at hmono
    exact_mod_cast hmono
  · intro hle
    by_contra hgt
    have hcast : (m : Rat) * 10 ^ j ≤ (10 : Rat) ^ p := by exact_mod_cast (not_le.mp hgt).le
    have hmono := nearest_mono hcast
    rw [hpower, h.reads] at hmono
    have heq : n = 10 ^ p := le_antisymm (by exact_mod_cast hmono) hle
    by_cases hj : j ≤ p
    · have hexact := h.exact (heq ▸ pow_dvd_pow 10 hj)
      omega
    · have hm : m = 0 := by
        by_contra hm
        have hpow : 10 ^ p ≤ 10 ^ j := Nat.pow_le_pow_right (by decide) (by omega)
        have hmul := Nat.le_mul_of_pos_left (10 ^ j) (Nat.pos_of_ne_zero hm)
        omega
      have hreads := h.reads
      rw [hm, Nat.cast_zero, zero_mul] at hreads
      have hzero : (n : Rat) = 0 := hreads.symm
      have hn : n = 0 := by exact_mod_cast hzero
      have hpow : 0 < 10 ^ p := by positivity
      omega

/-- Below the 22nd power of ten only powers of ten that are no greater have multiples that read
back. -/
theorem pow_le_of_reads (hn : n ≠ 0) (hlt : n < 10 ^ 22) {i k : Nat}
    (h : nearest ((k : Rat) * 10 ^ i) = n) : 10 ^ i ≤ n := by
  have hk : 0 < k := by
    apply Nat.pos_of_ne_zero
    intro hk
    rw [hk, Nat.cast_zero, zero_mul] at h
    have hzero : (n : Rat) = 0 := h.symm
    exact hn (by exact_mod_cast hzero)
  have hpower : ∀ p ≤ 22, p ≤ i → 10 ^ p ≤ n := by
    intro p hp hpi
    have hle : 10 ^ p ≤ k * 10 ^ i :=
      (Nat.pow_le_pow_right (by decide) hpi).trans (Nat.le_mul_of_pos_left _ hk)
    have hcast : (10 : Rat) ^ p ≤ (k : Rat) * 10 ^ i := by exact_mod_cast hle
    have hmono := nearest_mono hcast
    rw [nearest_pow_ten hp, h] at hmono
    exact_mod_cast hmono
  by_cases hi : i ≤ 22
  · exact hpower i hi le_rfl
  · exact absurd hlt (not_lt.mpr (hpower 22 le_rfl (by omega)))

/-- The digits are the integer's own if it ends in as many zeros as each multiple of a power of ten
that reads back to it. -/
theorem Written.eq_iff (h : Written n m j) (hlt : n < 10 ^ 22) :
    m * 10 ^ j = n ↔ ∀ i, (∃ k : Nat, nearest ((k : Rat) * 10 ^ i) = n) → 10 ^ i ∣ n := by
  constructor
  · intro heq i hread
    obtain ⟨k, hk⟩ := hread
    by_cases hn : n = 0
    · exact hn ▸ dvd_zero _
    · have hi := h.coarsest i k (pow_le_of_reads hn hlt hk) hk
      exact (pow_dvd_pow 10 hi).trans (heq ▸ dvd_mul_left _ _)
  · intro hall
    exact h.exact (hall j ⟨m, h.reads⟩)

/-- Safe integers are written with their own digits. -/
theorem Written.eq_of_isSafe (h : Written n m j) (hn : Binary64.isSafe n = true) :
    m * 10 ^ j = n := by
  have hcast : (m : Rat) * 10 ^ j = ((m * 10 ^ j : Nat) : Int) := by push_cast; rfl
  have hreads := h.reads
  rw [hcast, ← Int.cast_natCast (R := Rat) n] at hreads
  exact_mod_cast (eq_of_nearest_intCast hreads hn).symm

end

end Decimal

namespace Notation

/-- Whole numbers up to the end of positional notation are written with all their digits. -/
theorem positional_plain {m j : Nat} (hm : 0 < m) :
    plain.positional ⟨Decimal.dropTrailingZeros (Decimal.digitsOf m),
      (j : Int) + (Decimal.digitsOf m).length⟩ = Decimal.digitsOf (m * 10 ^ j) := by
  obtain ⟨hle, happend⟩ := Decimal.dropTrailingZeros_append (Decimal.digitsOf m)
  have hlength : 0 < (Decimal.digitsOf m).length := Nat.length_toDigits_pos
  unfold positional
  dsimp only
  rw [if_neg (by omega), if_pos (by omega)]
  have hzeros : zeros ((j : Int) + (Decimal.digitsOf m).length -
      (Decimal.dropTrailingZeros (Decimal.digitsOf m)).length) =
      List.replicate ((Decimal.digitsOf m).length -
        (Decimal.dropTrailingZeros (Decimal.digitsOf m)).length) '0' ++ List.replicate j '0' := by
    unfold zeros
    rw [List.replicate_append_replicate]
    congr 1
    omega
  rw [hzeros, ← List.append_assoc, happend, Decimal.toDigits_mul_pow hm]
  exact List.append_nil _

theorem ofList_digitsOf (n : Nat) : String.ofList (Decimal.digitsOf n) = toString (n : Int) :=
  Nat.toString_eq_ofList_toDigits.symm

theorem ofList_neg_digitsOf {n : Nat} (hn : 0 < n) :
    String.ofList ('-' :: Decimal.digitsOf n) = toString (-(n : Int)) := by
  obtain ⟨k, rfl⟩ : ∃ k, n = k + 1 := ⟨n - 1, by omega⟩
  change String.ofList (['-'] ++ Nat.toDigits 10 (k + 1)) = "-" ++ Nat.repr (k + 1)
  rw [Nat.repr_eq_ofList_toDigits, String.ofList_append]

theorem nearest_natAbs {x : Binary64} {n : Int} (hx : x.value = n) :
    nearest (n.natAbs : Rat) = n.natAbs := by
  have hself := x.nearest_value
  rw [hx] at hself
  rcases Int.natAbs_eq n with hn | hn
  · rw [hn, Int.cast_natCast] at hself
    exact hself
  · rw [hn, Int.cast_neg, Int.cast_natCast, nearest_neg, neg_inj] at hself
    exact hself

/-- Integers of up to 21 places are written positionally, with a minus sign if they need one. -/
theorem write_plain_of_lt {x : Binary64} {n : Int} (hx : x.value = n) (hlt : n.natAbs < 10 ^ 21) :
    ∃ m j : Nat, Decimal.Written n.natAbs m j ∧
      plain.write x = toString (n.sign * (m * 10 ^ j : Nat)) := by
  unfold write
  rw [hx]
  by_cases hzero : n = 0
  · subst hzero
    refine ⟨0, 0, Decimal.written_zero, ?_⟩
    rw [if_pos Int.cast_zero]
    rfl
  · obtain ⟨m, j, hwritten, hshortest⟩ :=
      Decimal.exists_written (nearest_natAbs hx) (Int.natAbs_pos.mpr hzero)
    have hm : 0 < m := by
      apply Nat.pos_of_ne_zero
      intro hm
      have hreads := hwritten.reads
      rw [hm, Nat.cast_zero, zero_mul] at hreads
      have hvalue : (n.natAbs : Rat) = 0 := hreads.symm
      exact hzero (Int.natAbs_eq_zero.mp (by exact_mod_cast hvalue))
    have hcount : (j : Int) + (Decimal.digitsOf m).length ≤ 21 := by
      have hproduct : m * 10 ^ j < 10 ^ 21 :=
        not_le.mp (mt (hwritten.pow_le_iff (by decide)).mp (not_le.mpr hlt))
      have hall : (Decimal.digitsOf (m * 10 ^ j)).length ≤ 21 :=
        (Nat.length_toDigits_le_iff (by omega) (by omega)).mpr hproduct
      rw [Decimal.toDigits_mul_pow hm, List.length_append, List.length_replicate] at hall
      omega
    have hwindow : (plain.leastPoint ≤ (j : Int) + (Decimal.digitsOf m).length &&
        (j : Int) + (Decimal.digitsOf m).length ≤ plain.greatestPoint) = true := by
      have hleast : plain.leastPoint = -5 := rfl
      have hgreatest : plain.greatestPoint = 21 := rfl
      rw [hleast, hgreatest, Bool.and_eq_true, decide_eq_true_eq, decide_eq_true_eq]
      omega
    refine ⟨m, j, hwritten, ?_⟩
    rw [if_neg (by exact_mod_cast hzero), abs_intCast, hshortest]
    dsimp only
    rw [if_pos hwindow, positional_plain hm]
    rcases lt_or_gt_of_ne hzero with hneg | hpos
    · rw [if_pos (by exact_mod_cast hneg), Int.sign_eq_neg_one_of_neg hneg, neg_one_mul]
      exact ofList_neg_digitsOf (by positivity)
    · rw [if_neg (by exact_mod_cast hpos.le.not_gt), Int.sign_eq_one_of_pos hpos, one_mul]
      exact ofList_digitsOf _

/-- Integers of more than 21 places are written with an exponent. -/
theorem mem_write_plain_of_le {x : Binary64} {n : Int} (hx : x.value = n)
    (hle : 10 ^ 21 ≤ n.natAbs) : 'e' ∈ (plain.write x).toList := by
  have hpos : 0 < n.natAbs := lt_of_lt_of_le (by decide) hle
  obtain ⟨m, j, hwritten, hshortest⟩ := Decimal.exists_written (nearest_natAbs hx) hpos
  apply mem_write_of_lt_point
  · rw [hx]
    exact_mod_cast Int.natAbs_pos.mp hpos
  · have hproduct := (hwritten.pow_le_iff (by decide)).mpr hle
    have hm : 0 < m := by
      apply Nat.pos_of_ne_zero
      intro hm
      rw [hm, Nat.zero_mul] at hproduct
      exact absurd hproduct (by decide)
    have hall : ¬ (Decimal.digitsOf (m * 10 ^ j)).length ≤ 21 := by
      rw [Decimal.digitsOf, Nat.length_toDigits_le_iff (by omega) (by omega)]
      exact not_lt.mpr hproduct
    rw [Decimal.toDigits_mul_pow hm, List.length_append, List.length_replicate] at hall
    have hgreatest : plain.greatestPoint = 21 := rfl
    rw [hx, abs_intCast, hshortest, hgreatest]
    dsimp only
    omega

/-- Safe integers are written with their decimal digits, and a minus sign if they need one. -/
theorem write_plain_of_isSafe {x : Binary64} {n : Int} (hx : x.value = n)
    (hn : Binary64.isSafe n = true) : plain.write x = toString n := by
  have hsafe : Binary64.isSafe (n.natAbs : Int) = true := by
    unfold Binary64.isSafe at hn ⊢
    rwa [Int.natAbs_natCast]
  have hlt := Binary64.lt_of_isSafe hn
  obtain ⟨m, j, hwritten, hwrite⟩ := write_plain_of_lt hx (by omega)
  rw [hwrite, hwritten.eq_of_isSafe hsafe, Int.sign_mul_natAbs]

end Notation
end ProgramGraph
