import ProgramGraph.Fault
import ProgramGraph.Syntax.Basic

/-! Program text of syntax trees. -/
namespace ProgramGraph

private def enclose (nested : Bool) (code : String) : String :=
  if nested then "(" ++ code ++ ")" else code

/-- A tuple of one item keeps its comma. -/
private def tupleText : List String → String
  | [item] => "(" ++ item ++ ",)"
  | items => "(" ++ ", ".intercalate items ++ ")"

mutual

/-- The text of an expression. A nested operation is parenthesized, the outermost one is not. -/
def Expr.source (e : Expr) (nested : Bool) : Except Fault String :=
  match e with
  | .constant v _ => .ok v.source
  | .name id _ _ => .ok id
  | .member value attr _ _ => do return (← value.source true) ++ "." ++ attr
  | .binary op left right _ => do
    let left ← left.source true
    let right ← right.source true
    return enclose nested (left ++ " " ++ op.symbol ++ " " ++ right)
  | .unary op operand _ => do return enclose nested (op.symbol ++ (← operand.source true))
  | .boolean op values _ => do
    return enclose nested ((" " ++ op.symbol ++ " ").intercalate (← sources values true))
  | .compare left ops comparators line => do
    let left ← left.source true
    return enclose nested (left ++ (← chainSource ops comparators line))
  | .call func args _ _ => do
    let func ← func.source true
    return func ++ "(" ++ ", ".intercalate (← sources args false) ++ ")"
  | .subscript value index _ _ => do
    let value ← value.source true
    return value ++ "[" ++ (← index.source false) ++ "]"
  | .list elements _ _ => do return "[" ++ ", ".intercalate (← sources elements false) ++ "]"
  | .tuple elements _ _ => do return tupleText (← sources elements false)
  | .unsupported nodeType line => .error ⟨.unhandled nodeType, line⟩

def Expr.sources (es : List Expr) (nested : Bool) : Except Fault (List String) :=
  match es with
  | [] => .ok []
  | e :: rest => do
    let text ← e.source nested
    return text :: (← sources rest nested)

/-- The comparisons after the first operand. Operands without an operator are left out. -/
def Expr.chainSource (ops : List CompareOp) (operands : List Expr) (line : Option Int) :
    Except Fault String :=
  match ops, operands with
  | [], _ => .ok ""
  | _ :: _, [] => .error ⟨.missingOperand, line⟩
  | op :: ops, e :: rest => do
    let text ← e.source true
    return " " ++ op.symbol ++ " " ++ text ++ (← chainSource ops rest line)

end

/-- The text of an assignment to all targets. -/
def Stmt.assignSource (targets : List Expr) (value : Expr) : Except Fault String := do
  let targets ← Expr.sources targets false
  return " = ".intercalate targets ++ " = " ++ (← value.source false)

/-- The text of an annotated assignment or declaration. -/
def Stmt.annAssignSource (target typeExpr : Expr) (value : Option Expr) :
    Except Fault String := do
  let target ← target.source false
  let declaration := target ++ ": " ++ (← typeExpr.source false)
  match value with
  | none => return declaration
  | some value => return declaration ++ " = " ++ (← value.source false)

/-- A function of its own that computes one value. -/
structure Lambda where
  name : String
  inputs : List String
  /-- Lines of the body, without indentation. -/
  body : List String
  returns : String
deriving DecidableEq

/-- The text of a lambda, followed by a blank line. -/
def Lambda.source (l : Lambda) : String :=
  let lines := ("def " ++ l.name ++ "(" ++ ", ".intercalate l.inputs ++ "):") ::
    (l.body ++ ["return " ++ l.returns]).map ("    " ++ ·)
  "\n".intercalate lines ++ "\n\n"

end ProgramGraph
