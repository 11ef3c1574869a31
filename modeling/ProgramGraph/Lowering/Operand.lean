import ProgramGraph.Graph.Basic

/-! What expressions are computed from, flattened for functions, records and lambdas. -/
namespace ProgramGraph

/-- Members in order of first occurrence. -/
def distinct {α : Type} [DecidableEq α] : List α → List α
  | [] => []
  | a :: rest => a :: (distinct rest).filter (· ≠ a)

theorem mem_distinct {α : Type} [DecidableEq α] {a : α} {l : List α} :
    a ∈ distinct l ↔ a ∈ l := by
  induction l with
  | nil => rfl
  | cons b rest ih =>
    by_cases h : a = b
    · simp [distinct, h]
    · simp [distinct, h, ih]

theorem nodup_distinct {α : Type} [DecidableEq α] (l : List α) : (distinct l).Nodup := by
  induction l with
  | nil => exact .nil
  | cons a rest ih => exact List.nodup_cons.mpr ⟨by simp, ih.sublist List.filter_sublist⟩

/-- A call keeps one list for each of its arguments. -/
inductive Operand where
  | literal (l : Literal)
  | ref (r : Reference)
  | call (callee : String) (arguments : List (List Operand))

namespace Operand

open ProgramGraph.Graph

mutual

/-- Versions and callees in order of appearance, a callee before its arguments. -/
def leaves : Operand → List Input
  | literal _ => []
  | ref r => [.ref r]
  | call callee arguments => .function callee :: leavesOfArguments arguments

def leavesOf : List Operand → List Input
  | [] => []
  | o :: rest => o.leaves ++ leavesOf rest

def leavesOfArguments : List (List Operand) → List Input
  | [] => []
  | os :: rest => leavesOf os ++ leavesOfArguments rest

end

/-- The only operand, if it is a literal. -/
def singleLiteral? : List Operand → Option Literal
  | [literal l] => some l
  | _ => none

/-- The inputs of a record: an array that is updated in place comes first. -/
def inputs (operands : List Operand) (carried : List Reference) : List Input :=
  distinct (carried.map Input.ref ++ leavesOf operands)

end Operand

namespace Graph

/-- An input without its version. -/
def Source.ofInput : Input → Source
  | .ref r => .var r.name
  | .function name => .function name

def Source.variable? : Source → Option String
  | .var name => some name
  | .function _ => none

/-- A source that names a version. -/
def Source.versioned (r : Reference) : Source :=
  .var (r.name ++ "_" ++ toString r.index)

end Graph

namespace Operand

open ProgramGraph.Graph

/-- The sources of a function: each name once for each of its roles. -/
def sources (operands : List Operand) (carried : List Reference) : List Source :=
  distinct ((carried.map Input.ref ++ leavesOf operands).map Source.ofInput)

/-- The parameters of a lambda: callees are not among them. -/
def parameters (operands : List Operand) (carried : List Reference) : List String :=
  (sources operands carried).filterMap Source.variable?

end Operand
end ProgramGraph
