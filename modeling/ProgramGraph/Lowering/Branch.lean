import ProgramGraph.Lowering.Expr
import ProgramGraph.Lowering.Scope

/-! Lowering of conditionals: the test, both branches, and the decisions between them. -/
namespace ProgramGraph.Lowering

open ProgramGraph.Graph

/-- The test, computed into a new boolean variable. -/
def condition (test : Expr) (line : Option Int) : Lowering (Fragment × Reference) := do
  let owner := (← scope).name
  let operands ← versioning test.operands
  let x := "IF_" ++ toString (← take (owner ++ "#condition"))
  modifyScope (·.addCondition x)
  let output : Reference := ⟨x, 0⟩
  let name ← next (owner ++ "__condition__" ++ x)
  let lambda ← next (owner ++ "__lambda__" ++ x)
  let text ← ofResult (test.source false)
  emit ⟨lambda, Operand.parameters operands [], [], text⟩
  let function := Function.assign name x (Operand.sources operands []) (.lambda lambda line)
  let record := Record.value name output (Operand.inputs operands [])
  return (⟨[function], [record]⟩, output)

/-- The versions that a variable has after the branches, where one of them wrote it. A branch
that did not write it leaves the version at entry. -/
def candidates? (entry : Int) (thenVersion elseVersion : Option Int) : Option (Int × Int) :=
  match thenVersion.filter (· ≠ entry), elseVersion.filter (· ≠ entry) with
  | some a, some b => some (a, b)
  | some a, none => some (a, entry)
  | none, some b => some (b, entry)
  | none, none => none

/-- The decision on one variable. Conditions have one version and are only made visible. -/
def mergeVariable (test : Reference) (start thenExit elseExit : Table Int) (x : String) :
    Lowering Fragment := do
  let scope ← scope
  if scope.conditions.contains x then
    versioning (fun v => .ok ((), v.pin x 0))
    return ∅
  let before := start.get? x
  let entry := before.getD scope.versions.baseline
  match candidates? entry (thenExit.get? x) (elseExit.get? x) with
  | none =>
    if before.isNone then versioning (fun v => .ok ((), v.pin x entry))
    return ∅
  | some (a, b) =>
    let inputs : List Reference := [test, ⟨x, a⟩, ⟨x, b⟩]
    let output ← versioning (.write x)
    let name ← next (scope.name ++ "__decision__" ++ x)
    return ⟨[.decision name x (inputs.map Source.versioned)],
      [.value name output (inputs.map Input.ref)]⟩

def mergeVariables (test : Reference) (start thenExit elseExit : Table Int) :
    List String → Lowering Fragment
  | [] => return ∅
  | x :: rest => do
    let first ← mergeVariable test start thenExit elseExit x
    return first ++ (← mergeVariables test start thenExit elseExit rest)

def latest : Lowering (Table Int) := fun s => .ok (s.scope.versions.latest, s)

def setLatest (t : Table Int) : Lowering Unit :=
  versioning fun v => .ok ((), { v with latest := t })

/-- Both branches start from the versions after the test. They draw from one sequence of new
versions, so that the candidates of a decision never share one. -/
def branch (test : Expr) (line : Option Int) (thenBlock elseBlock : Lowering Fragment) :
    Lowering Fragment := do
  let (tested, output) ← condition test line
  let start ← latest
  let thenPart ← thenBlock
  let thenExit ← latest
  setLatest start
  let elsePart ← elseBlock
  let elseExit ← latest
  setLatest start
  let names := distinct (start.keys ++ thenExit.keys ++ elseExit.keys)
  let decisions ← mergeVariables output start thenExit elseExit names
  return tested ++ thenPart ++ elsePart ++ decisions

end ProgramGraph.Lowering
