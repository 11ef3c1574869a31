import ProgramGraph.Proofs.Literals.Flattening

/-! Sums, differences, products and signs of integers fold to their exact value as long as every
operation on the way stays within the safe integers, and not at all otherwise. -/
namespace ProgramGraph

open ProgramGraph.Graph

/-- The exact result of a sum, a difference or a product. -/
def BinaryOp.integer? (op : BinaryOp) (m n : Int) : Option Int :=
  match op with
  | .add => some (m + n)
  | .sub => some (m - n)
  | .mult => some (m * n)
  | .div | .floorDiv | .mod | .pow => none

/-- The exact result of a sign. -/
def UnaryOp.integer? (op : UnaryOp) (n : Int) : Option Int :=
  match op with
  | .neg => some (-n)
  | .pos => some n
  | .not => none

namespace Expr

/-- The exact value of sums, differences, products and signs over safe integer constants. -/
def integer? : Expr → Option Int
  | constant ⟨.integer, .number x⟩ _ => x.toInt?.filter Binary64.isSafe
  | binary op left right _ => do op.integer? (← left.integer?) (← right.integer?)
  | unary op operand _ => do op.integer? (← operand.integer?)
  | _ => none

/-- A binary operation has a safe result. -/
def isSafeOperation (e : Expr) : Bool :=
  match e with
  | binary .. => e.integer?.any Binary64.isSafe
  | _ => true

end Expr

namespace Literal
variable {a b : Literal} {m n k : Int}

/-- An operation over safe integers folds to its exact result, or else that is not safe. -/
theorem foldBinary?_of_integer? {op : BinaryOp} (ha : a.Denotes (.integer m))
    (hb : b.Denotes (.integer n)) (hk : op.integer? m n = some k) :
    (∃ c, foldBinary? op a b = some c ∧ c.Denotes (.integer k) ∧ Binary64.isSafe k = true) ∨
      foldBinary? op a b = none ∧ Binary64.isSafe k = false := by
  cases ha with
  | @integer x _ hx hm =>
    cases hb with
    | @integer y _ hy hn =>
      have hfold : foldBinary? op ⟨.integer, .number x⟩ ⟨.integer, .number y⟩ =
          (Binary64.round? k).bind (represented? .integer) := by
        cases op with
        | add =>
          obtain rfl := Option.some.inj hk
          rw [Int.cast_add, ← hx, ← hy]
          rfl
        | sub =>
          obtain rfl := Option.some.inj hk
          rw [Int.cast_sub, ← hx, ← hy]
          rfl
        | mult =>
          obtain rfl := Option.some.inj hk
          rw [Int.cast_mul, ← hx, ← hy]
          rfl
        | _ => cases hk
      rw [hfold]
      cases hsafe : Binary64.isSafe k with
      | true =>
        obtain ⟨z, c, hz, hc, hdenotes⟩ := exists_represented? hsafe
        left
        refine ⟨c, ?_, hdenotes, rfl⟩
        rw [hz]
        exact hc
      | false =>
        right
        refine ⟨?_, rfl⟩
        by_contra hsome
        obtain ⟨c, hc⟩ := Option.ne_none_iff_exists'.mp hsome
        obtain ⟨z, hz, hc⟩ := Option.bind_eq_some_iff.mp hc
        -- rounding gives a safe integer only to that integer
        cases denotes_of_represented? hc hz with
        | integer _ h =>
          rw [hsafe] at h
          cases h

theorem foldUnary?_of_integer? {op : UnaryOp} (ha : a.Denotes (.integer n))
    (hk : op.integer? n = some k) :
    ∃ c, foldUnary? op a = some c ∧ c.Denotes (.integer k) := by
  cases op with
  | neg =>
    obtain rfl := Option.some.inj hk
    cases ha with
    | @integer x _ hx hn =>
      obtain ⟨z, hz, hv, hsafe⟩ := exists_negate? hx hn
      refine ⟨⟨.integer, .number z⟩, ?_, .integer hv hsafe⟩
      change (negate? x).bind _ = _
      rw [hz]
      rfl
  | pos =>
    obtain rfl := Option.some.inj hk
    cases ha with
    | integer hx hn => exact ⟨_, rfl, .integer hx hn⟩
  | not => cases hk

end Literal

namespace Expr

/-- How operands show an expression of integers: as its value if every operation in it is safe, and
as several operands otherwise. -/
inductive Computes (e : Expr) (n : Int) : List Operand → Prop
  | folded {l : Literal} (hsafe : e.All isSafeOperation) (hl : l.Denotes (.integer n)) :
      Computes e n [.literal l]
  | refused {os : List Operand} (hbeyond : ¬ e.All isSafeOperation) (hlength : 2 ≤ os.length) :
      Computes e n os

namespace Computes
variable {e : Expr} {n : Int} {os : List Operand}

theorem length_pos (h : e.Computes n os) : 1 ≤ os.length := by
  cases h with
  | folded => exact Nat.le_refl 1
  | refused _ hlength => omega

end Computes

theorem isSequence_of_integer? {e : Expr} {n : Int} (h : e.integer? = some n) :
    e.isSequence = false := by
  cases e <;> first | rfl | cases h

section
variable {op : BinaryOp} {left right : Expr} {line : Option Int} {m n k : Int}
  {ls rs : List Operand}

theorem computes_binary (hleft : left.integer? = some m) (hright : right.integer? = some n)
    (hk : op.integer? m n = some k) (hl : left.Computes m ls) (hr : right.Computes n rs) :
    (binary op left right line).Computes k (binaryOperands op left right ls rs) := by
  have hlength : 2 ≤ (ls ++ rs).length := by
    have hlpos := hl.length_pos
    have hrpos := hr.length_pos
    rw [List.length_append]
    omega
  have hself : isSafeOperation (binary op left right line) = Binary64.isSafe k := by
    unfold isSafeOperation integer?
    rw [hleft, hright]
    change (op.integer? m n).any _ = _
    rw [hk]
    rfl
  unfold binaryOperands
  rw [isSequence_of_integer? hleft, isSequence_of_integer? hright]
  cases hl with
  | refused hbeyond hllength =>
    rw [Flattens.singleLiteral?_of_length hllength]
    exact .refused (fun hall => hbeyond hall.binary.1) hlength
  | @folded a hlsafe ha =>
    cases hr with
    | refused hbeyond hrlength =>
      rw [Flattens.singleLiteral?_of_length hrlength]
      exact .refused (fun hall => hbeyond hall.binary.2) hlength
    | @folded b hrsafe hb =>
      change Computes _ k (foldOr (Literal.foldBinary? op a b) _)
      rcases Literal.foldBinary?_of_integer? ha hb hk with hfold | ⟨hnone, hbeyond⟩
      · obtain ⟨c, hc, hdenotes, hsafe⟩ := hfold
        rw [hc]
        exact .folded (All.binary_iff.mpr ⟨hself.trans hsafe, hlsafe, hrsafe⟩) hdenotes
      · rw [hnone]
        refine .refused (fun hall => ?_) hlength
        rw [All.binary_iff, hself, hbeyond] at hall
        cases hall.1

theorem computes_unary {op : UnaryOp} {operand : Expr} {os : List Operand}
    (hk : op.integer? n = some k) (ho : operand.Computes n os) :
    (unary op operand line).Computes k
      (foldOr ((Operand.singleLiteral? os).bind (Literal.foldUnary? op)) os) := by
  cases ho with
  | @folded a hsafe ha =>
    obtain ⟨c, hc, hdenotes⟩ := Literal.foldUnary?_of_integer? ha hk
    change Computes _ k (foldOr (Literal.foldUnary? op a) _)
    rw [hc]
    exact .folded (All.unary_iff.mpr ⟨rfl, hsafe⟩) hdenotes
  | refused hbeyond hlength =>
    rw [Flattens.singleLiteral?_of_length hlength]
    exact .refused (fun hall => hbeyond hall.unary) hlength

end

theorem operands_computes (e : Expr) {n : Int} (h : e.integer? = some n) (v : Versions) :
    ∃ os, e.operands v = .ok (os, v) ∧ e.Computes n os := by
  match e with
  | constant ⟨.integer, .number x⟩ line =>
    obtain ⟨hx, hn⟩ := Option.filter_eq_some_iff.mp h
    refine ⟨_, rfl, .folded ?_ (.integer (Binary64.value_of_toInt? hx) hn)⟩
    intro p hp
    obtain rfl := List.mem_singleton.mp hp
    rfl
  | binary op left right line =>
    obtain ⟨m, hleft, h⟩ := Option.bind_eq_some_iff.mp h
    obtain ⟨k, hright, h⟩ := Option.bind_eq_some_iff.mp h
    obtain ⟨ls, hls, hl⟩ := operands_computes left hleft v
    obtain ⟨rs, hrs, hr⟩ := operands_computes right hright v
    refine ⟨binaryOperands op left right ls rs, ?_, computes_binary hleft hright h hl hr⟩
    exact bind_eq_ok.mpr ⟨ls, v, hls, bind_eq_ok.mpr ⟨rs, v, hrs, rfl⟩⟩
  | unary op operand line =>
    obtain ⟨m, hoperand, h⟩ := Option.bind_eq_some_iff.mp h
    obtain ⟨os, hos, ho⟩ := operands_computes operand hoperand v
    exact ⟨_, bind_eq_ok.mpr ⟨os, v, hos, rfl⟩, computes_unary h ho⟩

/-- Expressions of integers are one literal, of their exact value, if and only if all operations in
them are safe. If not, they show several operands. -/
theorem operands_of_integer? {e : Expr} {n : Int} (h : e.integer? = some n) (v : Versions) :
    ∃ os, e.operands v = .ok (os, v) ∧
      ((∃ l, os = [.literal l]) ↔ e.All isSafeOperation) ∧
      (∀ l, os = [.literal l] → l.Denotes (.integer n)) ∧
      (¬ e.All isSafeOperation → 2 ≤ os.length) := by
  obtain ⟨os, hos, hcomputes⟩ := operands_computes e h v
  refine ⟨os, hos, ?_⟩
  cases hcomputes with
  | @folded a hsafe ha =>
    refine ⟨⟨fun _ => hsafe, fun _ => ⟨a, rfl⟩⟩, ?_, fun hbeyond => absurd hsafe hbeyond⟩
    rintro l heq
    cases heq
    exact ha
  | refused hbeyond hlength =>
    have hmany : ∀ l, os ≠ [.literal l] := by
      rintro l rfl
      rw [List.length_singleton] at hlength
      omega
    exact ⟨⟨fun ⟨l, hl⟩ => absurd hl (hmany l), fun hsafe => absurd hsafe hbeyond⟩,
      fun l hl => absurd hl (hmany l), fun _ => hlength⟩

/-- One more than the greatest safe integer, less one. -/
def aroundGreatest : Expr :=
  binary .sub (binary .add (constant (.ofSafe 9007199254740991 rfl) none)
    (constant (.ofSafe 1 rfl) none) none) (constant (.ofSafe 1 rfl) none) none

/-- The value is safe, but the sum on the way to it is not. -/
theorem operands_aroundGreatest :
    aroundGreatest.integer? = some 9007199254740991 ∧
      ∃ os, aroundGreatest.operands (.fresh 0) = .ok (os, .fresh 0) ∧ 2 ≤ os.length := by
  have hvalue : aroundGreatest.integer? = some 9007199254740991 := by decide
  obtain ⟨os, hos, -, -, hmany⟩ := operands_of_integer? hvalue (.fresh 0)
  exact ⟨hvalue, os, hos, hmany (by decide)⟩

end Expr
end ProgramGraph
