import ProgramGraph.Literal.Basic
import ProgramGraph.Proofs.Literals.Digits

/-! Integer constants as texts: which of them a program reads as integers, and as which. -/
namespace ProgramGraph

namespace Text

/-- The number that decimal digits denote. -/
def natural? (cs : List Char) : Option Nat :=
  if cs.isEmpty || !cs.all Char.isDigit then none else some (Decimal.natOfDigits cs)

/-- The integer that a text denotes in a program: decimal digits only, a minus sign before them or
not. -/
def integer? (s : String) : Option Int :=
  match s.toList with
  | '-' :: cs => (natural? cs).map fun k : Nat => -(k : Int)
  | cs => (natural? cs).map Int.ofNat

theorem natural?_digitsOf (n : Nat) : natural? (Decimal.digitsOf n) = some n := by
  have hvalue : Decimal.natOfDigits (Decimal.digitsOf n) = n :=
    Nat.ofDigitChars_toDigits (by decide) (by decide)
  have hne : (Decimal.digitsOf n).isEmpty = false :=
    List.isEmpty_eq_false_iff_exists_mem.mpr
      (List.exists_mem_of_length_pos Nat.length_toDigits_pos)
  have hdigits : (Decimal.digitsOf n).all Char.isDigit = true :=
    List.all_eq_true.mpr fun _ => Nat.isDigit_of_mem_toDigits (by decide) (by decide)
  unfold natural?
  rw [hne, hdigits, hvalue]
  rfl

theorem integer?_toString (n : Int) : integer? (toString n) = some n := by
  unfold integer?
  rcases lt_or_ge n 0 with hneg | hnonneg
  · obtain ⟨k, hk, rfl⟩ : ∃ k : Nat, 0 < k ∧ n = -(k : Int) := ⟨n.natAbs, by omega, by omega⟩
    rw [← Notation.ofList_neg_digitsOf hk, String.toList_ofList]
    exact congrArg (Option.map fun k : Nat => -(k : Int)) (natural?_digitsOf k)
  · obtain ⟨k, rfl⟩ := Int.eq_ofNat_of_zero_le hnonneg
    rw [← Notation.ofList_digitsOf, String.toList_ofList]
    split
    · rename_i cs hcs
      have hsign : '-' ∈ Decimal.digitsOf k := hcs ▸ List.mem_cons_self
      exact absurd (Nat.isDigit_of_mem_toDigits (by decide) (by decide) hsign) (by decide)
    · rw [natural?_digitsOf]
      rfl

/-- No other characters belong to an integer. -/
theorem integer?_eq_none {s : String} {c : Char} (hc : c ∈ s.toList) (hsign : c ≠ '-')
    (hdigit : c.isDigit = false) : integer? s = none := by
  have hnone : ∀ cs : List Char, c ∈ cs → natural? cs = none := by
    intro cs hcs
    have hall : cs.all Char.isDigit = false :=
      List.all_eq_false.mpr ⟨c, hcs, by rw [hdigit]; decide⟩
    unfold natural?
    rw [hall, Bool.not_false, Bool.or_true]
    rfl
  unfold integer?
  split
  · rename_i cs hcs
    rw [hcs] at hc
    rw [hnone cs ((List.mem_cons.mp hc).resolve_left hsign)]
    rfl
  · rw [hnone _ hc]
    rfl

end Text

/-- The multiples of powers of ten that read back to an integer are those that read back to its
magnitude. -/
theorem nearest_mul_pow_natAbs {n : Int} {i : Nat} :
    (∃ k : Int, nearest ((k : Rat) * 10 ^ i) = n) ↔
      ∃ k : Nat, nearest ((k : Rat) * 10 ^ i) = n.natAbs := by
  have hmagnitude : ∀ x : Rat, nearest |x| = |nearest x| := by
    intro x
    rcases le_total 0 x with hx | hx
    · have hnonneg : 0 ≤ nearest x := nearest_mono hx
      rw [abs_of_nonneg hx, abs_of_nonneg hnonneg]
    · have hnonpos : nearest x ≤ 0 := nearest_mono hx
      rw [abs_of_nonpos hx, abs_of_nonpos hnonpos, nearest_neg]
  have htens : (0 : Rat) ≤ 10 ^ i := by positivity
  constructor
  · rintro ⟨k, hk⟩
    refine ⟨k.natAbs, ?_⟩
    rw [← abs_intCast, abs_eq, ← abs_of_nonneg htens, ← abs_mul, hmagnitude, hk, ← abs_eq,
      abs_intCast]
  · rintro ⟨k, hk⟩
    rcases Int.natAbs_eq n with hn | hn
    · refine ⟨k, ?_⟩
      rw [hn, Int.cast_natCast, Int.cast_natCast]
      exact hk
    · refine ⟨-k, ?_⟩
      rw [hn, Int.cast_neg, Int.cast_neg, Int.cast_natCast, Int.cast_natCast, neg_mul, nearest_neg,
        hk]

/-- An integer is told by its sign and its magnitude. -/
theorem sign_mul_eq_iff {n : Int} {k : Nat} : n.sign * k = n ↔ n = 0 ∨ k = n.natAbs := by
  rcases lt_trichotomy n 0 with hneg | rfl | hpos
  · rw [Int.sign_eq_neg_one_of_neg hneg]
    omega
  · rw [Int.sign_zero, zero_mul]
    exact iff_of_true rfl (.inl rfl)
  · rw [Int.sign_eq_one_of_pos hpos]
    omega

theorem nearest_sign_mul {n : Int} {k : Nat} (h : nearest (k : Rat) = n.natAbs) :
    nearest ((n.sign * k : Int) : Rat) = n := by
  rcases lt_trichotomy n 0 with hneg | rfl | hpos
  · have habs : (n : Rat) = -(n.natAbs : Rat) := by
      rw [← Int.cast_natCast, Int.ofNat_natAbs_of_nonpos hneg.le, Int.cast_neg, neg_neg]
    rw [Int.sign_eq_neg_one_of_neg hneg, neg_one_mul, Int.cast_neg, Int.cast_natCast, nearest_neg,
      h, habs]
  · rw [Int.sign_zero, zero_mul]
    rfl
  · have habs : (n : Rat) = n.natAbs := by
      rw [← Int.cast_natCast, Int.natAbs_of_nonneg hpos.le]
    rw [Int.sign_eq_one_of_pos hpos, one_mul, Int.cast_natCast, h, habs]

namespace Literal

/-- The text of an integer constant is that of an integer below `10 ^ 21`. It is one that rounds to
the constant, and the constant itself unless the constant ends in fewer zeros than another integer
that rounds to it. -/
theorem integer_text {x : Binary64} {n : Int} (hx : x.toInt? = some n) :
    (mk .integer (.number x)).source = (mk .integer (.number x)).text ∧
      ((Text.integer? (mk .integer (.number x)).text).isSome = true ↔ n.natAbs < 10 ^ 21) ∧
      (∀ m, Text.integer? (mk .integer (.number x)).text = some m → nearest m = n ∧
        (m = n ↔ ∀ i, (∃ k : Int, nearest ((k : Rat) * 10 ^ i) = n) → 10 ^ i ∣ n)) ∧
      (Binary64.isSafe n = true → (mk .integer (.number x)).text = toString n) := by
  have hvalue := Binary64.value_of_toInt? hx
  have htext : (mk .integer (.number x)).text = Notation.plain.write x := rfl
  have hsome : (Text.integer? (mk .integer (.number x)).text).isSome = true ↔
      n.natAbs < 10 ^ 21 := by
    rw [htext]
    rcases lt_or_ge n.natAbs (10 ^ 21) with hlt | hge
    · obtain ⟨m, j, -, hwrite⟩ := Notation.write_plain_of_lt hvalue hlt
      rw [hwrite, Text.integer?_toString]
      exact iff_of_true rfl hlt
    · rw [Text.integer?_eq_none (Notation.mem_write_plain_of_le hvalue hge) (by decide) (by decide)]
      exact iff_of_false Bool.false_ne_true (not_lt.mpr hge)
  refine ⟨rfl, hsome, ?_, Notation.write_plain_of_isSafe hvalue⟩
  intro m hm
  have hlt : n.natAbs < 10 ^ 21 := hsome.mp (Option.isSome_iff_exists.mpr ⟨m, hm⟩)
  obtain ⟨d, j, hwritten, hwrite⟩ := Notation.write_plain_of_lt hvalue hlt
  rw [htext, hwrite, Text.integer?_toString] at hm
  obtain rfl := Option.some.inj hm
  have hreads : nearest ((d * 10 ^ j : Nat) : Rat) = n.natAbs := by
    rw [Nat.cast_mul, Nat.cast_pow, Nat.cast_ofNat]
    exact hwritten.reads
  have hown : n.sign * (d * 10 ^ j : Nat) = n ↔ d * 10 ^ j = n.natAbs := by
    rw [sign_mul_eq_iff, or_iff_right_of_imp]
    rintro rfl
    have hplaces := hwritten.pow_le_iff (show 0 ≤ 22 by omega)
    rw [pow_zero, Int.natAbs_zero] at hplaces
    rw [Int.natAbs_zero]
    omega
  refine ⟨nearest_sign_mul hreads, hown.trans ((hwritten.eq_iff (by omega)).trans ?_)⟩
  apply forall_congr'
  intro i
  have hdvd : (10 : Int) ^ i ∣ n ↔ 10 ^ i ∣ n.natAbs := by
    rw [← Int.natCast_dvd, Nat.cast_pow, Nat.cast_ofNat]
  rw [nearest_mul_pow_natAbs, hdvd]

/-- The text of `2 ^ 60` is that of another integer, which rounds to it. -/
theorem integer_text_two_pow_sixty :
    ∃ x : Binary64, x.toInt? = some 1152921504606846976 ∧
      (mk .integer (.number x)).source = (mk .integer (.number x)).text ∧
      Text.integer? (mk .integer (.number x)).text = some 1152921504606847000 ∧
      nearest (1152921504606847000 : Int) = (1152921504606846976 : Int) := by
  let x : Binary64 := ⟨1152921504606846976, by decide +kernel, by decide +kernel⟩
  have hx : x.toInt? = some 1152921504606846976 := rfl
  have htext : Text.integer? (mk .integer (.number x)).text = some 1152921504606847000 := by
    decide +kernel
  obtain ⟨hsource, -, hinteger, -⟩ := integer_text hx
  exact ⟨x, hx, hsource, htext, (hinteger _ htext).1⟩

/-- Not every integer constant is written as an integer, nor as itself. -/
theorem integer_text_rounded :
    (∃ x : Binary64, x.toInt? = some (2 ^ 60) ∧
        Text.integer? (mk .integer (.number x)).text = some (2 ^ 60 + 24)) ∧
      ∃ x : Binary64, x.toInt? = some (10 ^ 21) ∧
        (mk .integer (.number x)).text = "1e+21" ∧
        Text.integer? (mk .integer (.number x)).text = none :=
  ⟨⟨⟨2 ^ 60, by decide +kernel, by decide +kernel⟩, by decide +kernel, by decide +kernel⟩,
    ⟨10 ^ 21, by decide +kernel, by decide +kernel⟩, by decide +kernel, by decide +kernel,
    by decide +kernel⟩

end Literal
end ProgramGraph
