import ProgramGraph.Lowering.Expr
import ProgramGraph.Lowering.Scope

/-! Lowering of bounded loops into loop plates. -/
namespace ProgramGraph.Lowering

open ProgramGraph.Graph

def loopIndex (target : Expr) (line : Option Int) : Except Fault String :=
  match target with
  | .name id _ _ => .ok id
  | .tuple .. | .list .. => .error ⟨.loopIndices, line⟩
  | _ => .error ⟨.loopIndex, line⟩

def rangeBound (bound : Bound) (line : Option Int) : List Operand → Except Fault RangeBound
  | [.ref r] => .ok (.ref r)
  | [.literal l] =>
    match l.domain, l.value with
    | .integer, .number x => .ok (.literal x.value.floor)
    | _, _ => .error ⟨.rangeInteger bound, line⟩
  | _ => .error ⟨.rangeBound bound, line⟩

/-- The header of a loop: a call of `range` with a start and an end. -/
def rangeOf (line : Option Int) : List Operand → Except Fault Range
  | [.call "range" arguments] =>
    match arguments with
    | [start, stop] => do
      let start ← rangeBound .start line start
      return ⟨start, ← rangeBound .stop line stop⟩
    | _ => .error ⟨.rangeArity, line⟩
  | _ => .error ⟨.iteration, line⟩

/-- The body is a template with versions of its own: its baseline is -1, so that its first write
is distinct from any value that enters it. -/
def loop (target iter : Expr) (orelse : List Stmt) (line : Option Int)
    (body : Lowering Fragment) : Lowering Fragment := do
  unless orelse.isEmpty do refuse .loopElse line
  let index ← ofResult (loopIndex target line)
  let range ← ofResult (rangeOf line (← versioning iter.operands))
  let _ ← versioning (.write index)
  modifyScope (·.declareDefault index .integer)
  let outer := (← scope).versions
  modifyScope fun s => { s with versions := .fresh (-1) }
  let inner ← body
  let inputs := (← scope).versions.latest.keys.filter (· ≠ index)
  modifyScope fun s => { s with versions := outer }
  let name ← next ((← scope).name ++ "__loop_plate__" ++ index)
  return ⟨inner.functions ++ [.loopPlate name inputs index range inner.records],
    [.loop name inputs]⟩

end ProgramGraph.Lowering
