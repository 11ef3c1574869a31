import ProgramGraph.Literal.Basic
import ProgramGraph.Literal.Operator
import ProgramGraph.Number.Power
import ProgramGraph.Text.Units

/-! Operators over literals. What has no exact representation does not fold. -/
namespace ProgramGraph.Literal

def rounded (x : Option Rat) : Option Binary64 := x >>= Binary64.round?

/-- The floor of the rounded quotient. -/
def floorQuotient (a b : Rat) : Option Rat := do
  return ((← Binary64.round? (a / b)).value.floor : Rat)

/-- The number that an operator makes of two. Each operation rounds once: the remainder those of
the quotient, of its product with `b` and of the difference. -/
def evaluate? (op : BinaryOp) (a b : Binary64) : Option Binary64 :=
  match op with
  | .add => Binary64.round? (a.value + b.value)
  | .sub => Binary64.round? (a.value - b.value)
  | .mult => Binary64.round? (a.value * b.value)
  | .div => if b.value = 0 then none else Binary64.round? (a.value / b.value)
  | .floorDiv => if b.value = 0 then none else rounded (floorQuotient a.value b.value)
  | .mod =>
    if b.value = 0 then none
    else do
      let product ← Binary64.round? (b.value * (← floorQuotient a.value b.value))
      Binary64.round? (a.value - product.value)
  | .pow => Binary64.power? a b

/-- Quotients are real, and so are powers with negative exponents. -/
def resultDomain (op : BinaryOp) (a b : Domain) (exponentNegative : Bool) : Domain :=
  if a = .real || b = .real then .real
  else match op with
    | .div => .real
    | .pow => if exponentNegative then .real else .integer
    | _ => .integer

/-- A number under a domain, unless it is an integer beyond the safe ones. -/
def represented? (domain : Domain) (x : Binary64) : Option Literal :=
  match domain, x.toInt? with
  | .integer, some n => if Binary64.isSafe n then some ⟨.integer, .number x⟩ else none
  | .integer, none => none
  | domain, _ => some ⟨domain, .number x⟩

/-- Numbers fold under every operator, texts under addition. -/
def foldBinary? (op : BinaryOp) (a b : Literal) : Option Literal :=
  match a.number?, b.number? with
  | some x, some y => do
    represented? (resultDomain op a.domain b.domain (y.value < 0)) (← evaluate? op x y)
  | _, _ =>
    if op = .add && a.domain = .string && b.domain = .string then
      some ⟨.string, .string (a.value.text ++ b.value.text)⟩
    else none

/-- Numbers compare by value, texts by code units. -/
def foldCompare? (op : CompareOp) (a b : Literal) : Option Literal :=
  match a.number?, b.number? with
  | some x, some y => some ⟨.boolean, .bool (op.holds (compareOfLessAndEq x.value y.value))⟩
  | _, _ =>
    match a, b with
    | ⟨.string, .string s⟩, ⟨.string, .string t⟩ =>
      some ⟨.boolean, .bool (op.holds (Text.compareUnits s t))⟩
    | _, _ => none

/-- The opposite number. -/
def negate? (x : Binary64) : Option Binary64 := Binary64.round? (0 - x.value)

def foldUnary? (op : UnaryOp) (a : Literal) : Option Literal :=
  match op with
  | .not => some ⟨.boolean, .bool (!a.value.truth)⟩
  | .pos => a.number?.map fun _ => a
  | .neg => do return ⟨a.domain, .number (← negate? (← a.number?))⟩

end ProgramGraph.Literal
