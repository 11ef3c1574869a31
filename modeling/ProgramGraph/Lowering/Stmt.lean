import ProgramGraph.Lowering.Assignment
import ProgramGraph.Lowering.Branch
import ProgramGraph.Lowering.Loop

/-! Lowering of statements. -/
namespace ProgramGraph

namespace Lowering

open ProgramGraph.Graph

/-- Arguments of a call for its effect: literals leave no trace. -/
def effectInputs (line : Option Int) : List (List Operand) → Except Fault (List Reference)
  | [] => .ok []
  | [.literal _] :: rest => effectInputs line rest
  | [.ref r] :: rest => do return r :: (← effectInputs line rest)
  | [.call _ _] :: _ => .error ⟨.nestedCall, line⟩
  | _ :: _ => .error ⟨.argumentInputs, line⟩

def effect (value : Expr) (line : Option Int) : Lowering Fragment :=
  match value with
  | .call func args keywords own => do
    let (callee, arguments) ← versioning (Expr.callOperands func args keywords own)
    return ⟨[], [.call callee (← ofResult (effectInputs line arguments))]⟩
  | _ => refuse .effectlessExpression line

def declaration (s : Scope) (line : Option Int) (x : String) : Except Fault Declaration :=
  match s.domains.get? x with
  | some d => .ok ⟨x, d⟩
  | none => .error ⟨.undeclared x s.name, line⟩

/-- A parameter has its entry version from the start. -/
def parameter (line : Option Int) (p : Parameter) : Lowering Unit := do
  let d ← ofResult (Expr.annotatedDomain p.typeExpr p.name (p.line <|> line))
  modifyScope (·.declare p.name d)
  let _ ← versioning (.read p.name)

/-- The body has a scope of its own. Its functions stand beside the container, which refers to
them by name. -/
def functionDef (name : String) (parameters : List Parameter) (line : Option Int)
    (body : Lowering Fragment) : Lowering Fragment := do
  claim name line
  let outer ← scope
  modifyScope fun _ => .ofFunction name
  parameters.forM (parameter line)
  let inner ← body
  let s ← scope
  let input ← ofResult (parameters.mapM fun p => declaration s line p.name)
  let vars ← ofResult (s.versions.latest.keys.mapM (declaration s line))
  modifyScope fun _ => outer
  return ⟨inner.functions ++ [.container name input vars inner.records], []⟩

end Lowering

open Lowering

mutual

def Stmt.lower (s : Stmt) : Lowering Fragment :=
  match s with
  | .functionDef name parameters body line =>
    Lowering.functionDef name parameters line (lowerBlock body)
  | .assign targets value line => Lowering.assign targets value line
  | .annAssign target typeExpr value line => Lowering.annAssign target typeExpr value line
  | .branch test body orelse line => Lowering.branch test line (lowerBlock body) (lowerBlock orelse)
  | .loop target iter body orelse line => Lowering.loop target iter orelse line (lowerBlock body)
  | .expr value line => effect value line
  | .unsupported nodeType line => refuse (.unhandled nodeType) line

def Stmt.lowerBlock (block : List Stmt) : Lowering Fragment :=
  match block with
  | [] => return ∅
  | s :: rest => do
    let first ← s.lower
    return first ++ (← lowerBlock rest)

end

end ProgramGraph
