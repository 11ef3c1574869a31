import ProgramGraph.Proofs.Literals.Division
import ProgramGraph.Proofs.Literals.Ordering
import ProgramGraph.Proofs.Literals.Powers
import ProgramGraph.Proofs.Validity.Operands

/-! Folding gives the value of an operation, wherever its roundings are those of the operation. -/
namespace ProgramGraph

namespace Literal

theorem foldBinary?_eq_some {op : BinaryOp} {a b c : Literal} {x y : Binary64}
    (hx : a.number? = some x) (hy : b.number? = some y) (h : foldBinary? op a b = some c) :
    ∃ z, evaluate? op x y = some z ∧
      represented? (resultDomain op a.domain b.domain (y.value < 0)) z = some c := by
  unfold foldBinary? at h
  rw [hx, hy] at h
  exact Option.bind_eq_some_iff.mp h

end Literal

namespace Floating

/-- The numbers of two reals are rounded in the same way. -/
theorem binary_of_evaluate? {op : BinaryOp} {a b : Floating} {z : Binary64}
    (hop : op ≠ .floorDiv ∧ op ≠ .mod)
    (hpow : op = .pow → a.number.integerPower? b.number = some z.value)
    (h : Literal.evaluate? op a.number b.number = some z) :
    ∃ r, binary op a b = some r ∧ r.number = z := by
  have hmap : ∀ {o : Option Binary64} (negativeZero : Bool), o = some z →
      ∃ r, o.map (make · negativeZero) = some r ∧ r.number = z := by
    rintro o negativeZero rfl
    exact ⟨make z negativeZero, rfl, rfl⟩
  cases op with
  | add => exact hmap _ h
  | sub => exact hmap _ h
  | mult => exact hmap _ h
  | div =>
    unfold Literal.evaluate? at h
    unfold binary
    dsimp only at h ⊢
    split at h
    · cases h
    · rw [if_neg ‹_›]
      exact hmap _ h
  | floorDiv => exact absurd rfl hop.1
  | mod => exact absurd rfl hop.2
  | pow => exact hmap _ (Binary64.exactPower?_of_value (hpow rfl))

theorem ofInt?_of_value {x : Binary64} {n : Int} (hx : x.value = n)
    (hn : Binary64.isSafe n = true) : ofInt? n = some (make x false) := by
  obtain ⟨y, hy, hv⟩ := Binary64.round?_of_isSafe hn
  have heq : y = x := by
    obtain ⟨value, h₁, h₂⟩ := x
    obtain ⟨value', h₁', h₂'⟩ := y
    obtain rfl : value' = value := hv.trans hx.symm
    rfl
  rw [ofInt?, Binary64.ofInt?, hy, heq]
  rfl

end Floating

namespace Literal

/-- The number of a literal, as a real. -/
theorem Denotes.floating? {l : Literal} {v : Value} {x : Binary64} (h : l.Denotes v)
    (hx : l.number? = some x) : ∃ r, v.floating? = some r ∧ r.number = x := by
  cases h with
  | integer hv hn =>
    obtain rfl := Option.some.inj hx
    exact ⟨_, Floating.ofInt?_of_value hv hn, rfl⟩
  | real =>
    obtain rfl := Option.some.inj hx
    exact ⟨_, rfl, rfl⟩
  | string => cases hx
  | boolean => cases hx

/-- An operation on a real and a number, either way round. -/
theorem foldBinary?_denotes_real {op : BinaryOp} {a b c : Literal} {va vb : Value}
    (ha : a.Denotes va) (hb : b.Denotes vb) (hreal : a.domain = .real ∨ b.domain = .real)
    (hop : op ≠ .floorDiv ∧ op ≠ .mod) (hpow : op = .pow → foldsPower a b = true)
    {x y : Binary64} (hx : a.number? = some x) (hy : b.number? = some y)
    (h : foldBinary? op a b = some c) :
    ∃ v, Value.binary op va vb = some v ∧ c.Denotes v := by
  obtain ⟨z, hz, hc⟩ := foldBinary?_eq_some hx hy h
  obtain ⟨r, hr, rfl⟩ := ha.floating? hx
  obtain ⟨q, hq, rfl⟩ := hb.floating? hy
  have hdomain : resultDomain op a.domain b.domain (q.number.value < 0) = .real := by
    unfold resultDomain
    rcases hreal with hd | hd <;> simp [hd]
  rw [hdomain] at hc
  obtain rfl := Option.some.inj hc
  have hpower : op = .pow → r.number.integerPower? q.number = some z.value := by
    rintro rfl
    exact (value_of_foldsPower hx hy h (hpow rfl)).symm
  obtain ⟨result, hresult, rfl⟩ := Floating.binary_of_evaluate? hop hpower hz
  refine ⟨.real result, ?_, .real⟩
  have hinteger : va.integer? = none ∨ vb.integer? = none := by
    rcases hreal with hd | hd
    · left
      cases ha <;> first | rfl | cases hd
    · right
      cases hb <;> first | rfl | cases hd
  unfold Value.binary
  rw [hr, hq]
  dsimp only
  rw [hresult]
  rcases hinteger with hn | hn
  · rw [hn]
    rfl
  · rw [hn]
    cases va.integer? <;> rfl

section
variable {x y z : Binary64} {m n : Int} {c : Literal}

/-- Nothing is divided by zero. -/
theorem ne_zero_of_evaluate? {op : BinaryOp} (hy : y.value = n)
    (hop : op = .div ∨ op = .floorDiv ∨ op = .mod) (hz : evaluate? op x y = some z) : n ≠ 0 := by
  rintro rfl
  rcases hop with rfl | rfl | rfl <;> simp [evaluate?, hy] at hz

variable (hx : x.value = m) (hm : Binary64.isSafe m = true) (hy : y.value = n)
  (hn : Binary64.isSafe n = true)

include hx hm hy hn in
private theorem floorDiv_denotes (hn0 : n ≠ 0)
    (h : foldBinary? .floorDiv ⟨.integer, .number x⟩ ⟨.integer, .number y⟩ = some c) :
    ∃ v, Value.integerBinary .floorDiv m n = some v ∧ c.Denotes v := by
  obtain ⟨d, hd, hdenotes⟩ := foldBinary?_floorDiv hm hn hn0 hx hy
  obtain rfl := Option.some.inj (h.symm.trans hd)
  exact ⟨_, if_neg hn0, hdenotes⟩

include hx hm hy hn in
private theorem mod_denotes (hproduct : Binary64.isSafe (n * m.fdiv n) = true) (hn0 : n ≠ 0)
    (h : foldBinary? .mod ⟨.integer, .number x⟩ ⟨.integer, .number y⟩ = some c) :
    ∃ v, Value.integerBinary .mod m n = some v ∧ c.Denotes v := by
  obtain ⟨d, hd, hdenotes⟩ := foldBinary?_mod hm hn hn0 hx hy
  obtain rfl := Option.some.inj (h.symm.trans hd)
  rw [roundedRemainder_of_isSafe hproduct] at hdenotes
  exact ⟨_, if_neg hn0, hdenotes⟩

include hx hm hy hn in
private theorem pow_denotes
    (hfold : foldsPower ⟨.integer, .number x⟩ ⟨.integer, .number y⟩ = true)
    (h : foldBinary? .pow ⟨.integer, .number x⟩ ⟨.integer, .number y⟩ = some c) :
    ∃ v, Value.integerBinary .pow m n = some v ∧ c.Denotes v := by
  have hvalue := value_of_foldsPower rfl rfl h hfold
  obtain ⟨z, hz, hc⟩ := foldBinary?_eq_some rfl rfl h
  unfold Value.integerBinary
  dsimp only
  by_cases hsign : 0 ≤ n
  · have hnonneg : ¬ y.value < 0 := by
      rw [hy, not_lt]
      exact_mod_cast hsign
    have hdomain : resultDomain .pow .integer .integer (y.value < 0) = .integer := by
      simp [resultDomain, hnonneg]
    have hy' : y.value = n.toNat := by
      rw [hy, ← Int.cast_natCast, Int.toNat_of_nonneg hsign]
    rw [hdomain] at hc
    rw [if_pos hsign]
    refine ⟨_, rfl, ?_⟩
    unfold represented? at hc
    cases hk : z.toInt? with
    | none => simp [hk] at hc
    | some k =>
      simp only [hk] at hc
      split at hc
      · rename_i hsafe
        obtain rfl := Option.some.inj hc
        have hpower : z.value = ((m ^ n.toNat : Int) : Rat) :=
          Option.some.inj (hvalue.trans (Binary64.integerPower?_natCast hx hy'))
        have hk' : k = m ^ n.toNat := by
          exact_mod_cast (Binary64.value_of_toInt? hk).symm.trans hpower
        exact .integer hpower (hk' ▸ hsafe)
      · cases hc
  · have hnegative : y.value < 0 := by
      rw [hy]
      exact_mod_cast not_le.mp hsign
    have hdomain : resultDomain .pow .integer .integer (y.value < 0) = .real := by
      simp [resultDomain, hnegative]
    rw [hdomain] at hc
    obtain rfl := Option.some.inj hc
    have hevaluate : evaluate? .pow (Floating.make x false).number (Floating.make y false).number =
        some z := hz
    obtain ⟨r, hr, rfl⟩ :=
      Floating.binary_of_evaluate? ⟨by decide, by decide⟩ (fun _ => hvalue.symm) hevaluate
    rw [if_neg hsign, Floating.ofInt?_of_value hx hm, Floating.ofInt?_of_value hy hn]
    refine ⟨.real r, ?_, .real⟩
    change (Floating.binary .pow _ _).bind _ = _
    rw [hr]
    rfl

include hx hm hy hn in
/-- An operation on safe integers. -/
theorem foldBinary?_denotes_integer {op : BinaryOp}
    (hproduct : op = .mod → Binary64.isSafe (n * m.fdiv n) = true)
    (hpow : op = .pow → foldsPower ⟨.integer, .number x⟩ ⟨.integer, .number y⟩ = true)
    (h : foldBinary? op ⟨.integer, .number x⟩ ⟨.integer, .number y⟩ = some c) :
    ∃ v, Value.integerBinary op m n = some v ∧ c.Denotes v := by
  obtain ⟨z, hz, hc⟩ := foldBinary?_eq_some rfl rfl h
  have hexact : ∀ {e : Int} {q : Rat}, q = (e : Rat) → Binary64.round? q = some z →
      represented? .integer z = some c → c.Denotes (.integer e) := by
    rintro e q rfl hround hrep
    exact denotes_of_represented? hrep hround
  cases op with
  | add => exact ⟨_, rfl, hexact (by rw [hx, hy]; push_cast; rfl) hz hc⟩
  | sub => exact ⟨_, rfl, hexact (by rw [hx, hy]; push_cast; rfl) hz hc⟩
  | mult => exact ⟨_, rfl, hexact (by rw [hx, hy]; push_cast; rfl) hz hc⟩
  | div =>
    have hn0 := ne_zero_of_evaluate? hy (.inl rfl) hz
    have hzero : y.value ≠ 0 := by
      rw [hy]
      exact_mod_cast hn0
    have hquotient : Binary64.round? (m / n) = some z := by
      rw [← hx, ← hy]
      exact (if_neg hzero).symm.trans hz
    obtain rfl := Option.some.inj hc
    refine ⟨.real (.make z (decide (m < 0) != decide (n < 0))), ?_, denotes_make z _⟩
    unfold Value.integerBinary
    dsimp only
    rw [if_neg hn0, hquotient]
    rfl
  | floorDiv => exact floorDiv_denotes hx hm hy hn (ne_zero_of_evaluate? hy (.inr (.inl rfl)) hz) h
  | mod =>
    exact mod_denotes hx hm hy hn (hproduct rfl) (ne_zero_of_evaluate? hy (.inr (.inr rfl)) hz) h
  | pow => exact pow_denotes hx hm hy hn (hpow rfl) h

end

end Literal

/-- Whether folding can be trusted with an operation. A floor division or a remainder is one of
integers, and no product on the way to the remainder is rounded; a power is the power itself. -/
def BinaryOp.isExact (op : BinaryOp) (a b : Literal) : Bool :=
  let integers : Bool := a.domain ≠ .real && b.domain ≠ .real
  match op with
  | .floorDiv => integers
  | .mod =>
    integers && match a.value?, b.value? with
      | some (.integer m), some (.integer n) => Binary64.isSafe (n * m.fdiv n)
      | _, _ => true
  | .pow => Literal.foldsPower a b
  | _ => true

/-- Whether folding can be trusted with a comparison: no text has a character of two units. -/
def Literal.comparesExactly (a b : Literal) : Bool :=
  match a.value, b.value with
  | .string s, .string t => Text.isBasic s && Text.isBasic t
  | _, _ => true

namespace Literal

/-- A fold of an operator denotes what the operator gives. -/
theorem foldBinary?_denotes {op : BinaryOp} {a b c : Literal} {va vb : Value}
    (ha : a.Denotes va) (hb : b.Denotes vb) (hexact : op.isExact a b = true)
    (h : foldBinary? op a b = some c) : ∃ v, Value.binary op va vb = some v ∧ c.Denotes v := by
  have hop : a.domain = .real ∨ b.domain = .real → op ≠ .floorDiv ∧ op ≠ .mod := by
    intro hreal
    constructor
    · rintro rfl
      rcases hreal with hd | hd <;> simp [BinaryOp.isExact, hd] at hexact
    · rintro rfl
      rcases hreal with hd | hd <;> simp [BinaryOp.isExact, hd] at hexact
  have hpow : op = .pow → foldsPower a b = true := by
    rintro rfl
    exact hexact
  cases ha with
  | integer hx hm =>
    cases hb with
    | integer hy hn =>
      refine foldBinary?_denotes_integer hx hm hy hn ?_ hpow h
      rintro rfl
      simpa [BinaryOp.isExact, Literal.value?, Binary64.toInt?_of_value hx,
        Binary64.toInt?_of_value hy] using hexact
    | real =>
      exact foldBinary?_denotes_real (.integer hx hm) .real (.inr rfl) (hop (.inr rfl)) hpow rfl rfl h
    | string => cases op <;> cases h
    | boolean => cases op <;> cases h
  | real =>
    cases hb with
    | integer hy hn =>
      exact foldBinary?_denotes_real .real (.integer hy hn) (.inl rfl) (hop (.inl rfl)) hpow rfl rfl h
    | real => exact foldBinary?_denotes_real .real .real (.inl rfl) (hop (.inl rfl)) hpow rfl rfl h
    | string => cases op <;> cases h
    | boolean => cases op <;> cases h
  | string =>
    cases hb with
    | string =>
      cases op with
      | add =>
        obtain rfl := Option.some.inj h
        exact ⟨_, rfl, .string⟩
      | _ => cases h
    | _ => cases op <;> cases h
  | boolean => cases hb <;> cases op <;> cases h

/-- The exact number of a literal. -/
theorem Denotes.rational? {l : Literal} {v : Value} {x : Binary64} (h : l.Denotes v)
    (hx : l.number? = some x) : v.rational? = some x.value := by
  cases h with
  | integer hv hn =>
    obtain rfl := Option.some.inj hx
    rw [hv]
    rfl
  | real =>
    obtain rfl := Option.some.inj hx
    rfl
  | string => cases hx
  | boolean => cases hx

/-- A fold of a comparison denotes its truth. -/
theorem foldCompare?_denotes {op : CompareOp} {a b c : Literal} {va vb : Value}
    (ha : a.Denotes va) (hb : b.Denotes vb) (hexact : comparesExactly a b = true)
    (h : foldCompare? op a b = some c) :
    ∃ t, Value.compare op va vb = some t ∧ c.Denotes (.boolean t) := by
  unfold foldCompare? at h
  split at h
  · rename_i x y hx hy
    obtain rfl := Option.some.inj h
    refine ⟨_, ?_, .boolean⟩
    unfold Value.compare
    rw [ha.rational? hx, hb.rational? hy]
  · split at h
    · rename_i s t
      obtain rfl := Option.some.inj h
      cases ha
      cases hb
      obtain ⟨hs, ht⟩ := Bool.and_eq_true_iff.mp hexact
      rw [Text.compareUnits_of_isBasic hs ht]
      exact ⟨_, rfl, .boolean⟩
    · cases h

theorem Denotes.truth {l : Literal} {v : Value} (h : l.Denotes v) : v.truth = l.value.truth := by
  rw [Bool.eq_iff_iff]
  cases h with
  | @integer x n hx hn =>
    have hiff : x.value = 0 ↔ n = 0 := by
      rw [hx]
      exact Rat.intCast_eq_zero_iff
    simp [Value.truth, Scalar.truth, hiff]
  | real => simp [Value.truth, Scalar.truth]
  | string => simp [Value.truth, Scalar.truth]
  | boolean => simp [Value.truth, Scalar.truth]

/-- A fold of an operator with one operand denotes what the operator gives. -/
theorem foldUnary?_denotes {op : UnaryOp} {a c : Literal} {v : Value} (ha : a.Denotes v)
    (h : foldUnary? op a = some c) : ∃ w, Value.unary op v = some w ∧ c.Denotes w := by
  cases op with
  | not =>
    obtain rfl := Option.some.inj h
    rw [← ha.truth]
    exact ⟨_, rfl, .boolean⟩
  | pos =>
    obtain ⟨x, hx, rfl⟩ := Option.map_eq_some_iff.mp h
    cases ha with
    | integer hv hn => exact ⟨_, rfl, .integer hv hn⟩
    | real => exact ⟨_, rfl, .real⟩
    | string => cases hx
    | boolean => cases hx
  | neg =>
    obtain ⟨x, hx, h⟩ := Option.bind_eq_some_iff.mp h
    obtain ⟨y, hy, h⟩ := Option.bind_eq_some_iff.mp h
    obtain rfl := Option.some.inj h
    cases ha with
    | integer hv hn =>
      obtain rfl := Option.some.inj hx
      obtain ⟨hopposite, hsafe⟩ := toInt?_negate? (Binary64.toInt?_of_value hv) hn hy
      exact ⟨_, rfl, .integer (Binary64.value_of_toInt? hopposite) hsafe⟩
    | @real r =>
      obtain rfl := Option.some.inj hx
      refine ⟨.real (.make y !r.negative), ?_, denotes_make y _⟩
      change (negate? r.number).map _ = _
      rw [hy]
      rfl
    | string => cases hx
    | boolean => cases hx

end Literal
end ProgramGraph
