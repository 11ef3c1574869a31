import ProgramGraph.Lowering.Expr
import ProgramGraph.Lowering.Scope
import ProgramGraph.Syntax.Declared

/-! Lowering of assignments: one function and one record for each target. -/
namespace ProgramGraph.Lowering

open ProgramGraph.Graph

/-- A target whose only operand is a literal carries it; else a lambda runs the statement. -/
def assignTarget (statement : Except Fault String) (line : Option Int) (operands : List Operand)
    (target : Target) : Lowering Fragment := do
  let owner := (← scope).name
  let x := target.reference.name
  let carried := target.carried.toList
  let sources := Operand.sources operands carried
  let name ← next (owner ++ "__assign__" ++ x)
  let record := Record.value name target.reference (Operand.inputs operands carried)
  match sources, Operand.singleLiteral? operands with
  | [], some l =>
    modifyScope (·.declareDefault x l.domain)
    return ⟨[.assign name x [] (.literal l.domain l.text)], [record]⟩
  | _, _ =>
    let lambda ← next (owner ++ "__lambda__" ++ x)
    let body ← ofResult statement
    emit ⟨lambda, Operand.parameters operands carried, [body], x⟩
    return ⟨[.assign name x sources (.lambda lambda line)], [record]⟩

def assignTargets (statement : Except Fault String) (line : Option Int)
    (operands : List Operand) : List Target → Lowering Fragment
  | [] => return ∅
  | t :: rest => do
    let first ← assignTarget statement line operands t
    return first ++ (← assignTargets statement line operands rest)

/-- All targets are written before the first function is made. -/
def assign (targets : List Expr) (value : Expr) (line : Option Int) : Lowering Fragment := do
  let operands ← versioning value.operands
  let written ← versioning (targets.mapM Expr.target)
  assignTargets (Stmt.assignSource targets value) line operands written

def declaredName (target : Expr) (line : Option Int) : Except Fault String :=
  match target with
  | .name id _ _ => .ok id
  | _ => .error ⟨.annotatedTarget, line⟩

/-- The value that an annotated assignment gives: a list display only declares storage. -/
def initialValue? : Option Expr → Option Expr
  | some (.list ..) | none => none
  | some value => some value

def annAssign (target typeExpr : Expr) (value : Option Expr) (line : Option Int) :
    Lowering Fragment := do
  let x ← ofResult (declaredName target line)
  let d ← ofResult (Expr.annotatedDomain (some typeExpr) x line)
  modifyScope (·.declare x d)
  match initialValue? value with
  | none => return ∅
  | some v =>
    let operands ← versioning v.operands
    let written ← versioning target.target
    assignTargets (Stmt.annAssignSource target typeExpr value) line operands [written]

end ProgramGraph.Lowering
