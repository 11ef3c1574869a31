import ProgramGraph.Literal.Fold
import ProgramGraph.Lowering.Operand
import ProgramGraph.Lowering.Versions
import ProgramGraph.Syntax.Basic

/-! Operands of expressions. Operations contribute the operands of their parts, in order; over
literals they fold. -/
namespace ProgramGraph

open Versioning

namespace Expr

/-- A repeated list is not arithmetic on its only element. -/
def isSequence : Expr → Bool
  | list .. | tuple .. => true
  | _ => false

/-- The qualified name of a function that is called. A failure shows the given line, or else that
of the outermost qualification. -/
def callee (func : Expr) (line : Option Int) : Except Fault String :=
  match func with
  | name id _ _ => .ok id
  | member value attr _ own => do return (← value.callee (line <|> own)) ++ "." ++ attr
  | _ => .error ⟨.callee, line⟩

/-- Whether an expression is an integer constant, perhaps with a minus sign. -/
def isConstantIndex : Expr → Bool
  | constant v _ => v.domain = .integer
  | unary .neg (constant v _) _ => v.domain = .integer
  | _ => false

/-- The array of a subscript. All its elements share one counter of versions. -/
def subscriptBase (value index : Expr) (line : Option Int) : Except Fault String :=
  match value with
  | name id _ _ => if index.isConstantIndex then .ok id else .error ⟨.arrayIndex id, line⟩
  | _ => .error ⟨.subscriptOfExpression, line⟩

def foldOr (folded : Option Literal) (operands : List Operand) : List Operand :=
  match folded with
  | some l => [.literal l]
  | none => operands

def binaryOperands (op : BinaryOp) (left right : Expr) (ls rs : List Operand) : List Operand :=
  let folded := do
    guard (!left.isSequence && !right.isSequence)
    (← Operand.singleLiteral? ls).foldBinary? op (← Operand.singleLiteral? rs)
  foldOr folded (ls ++ rs)

/-- A chain of comparisons folds if it has one operator, which then takes the first comparator. -/
def compareOperands (ops : List CompareOp) (ls : List Operand) (rs : List (List Operand)) :
    List Operand :=
  let folded := match ops, rs with
    | [op], r :: _ => do
      Literal.foldCompare? op (← Operand.singleLiteral? ls) (← Operand.singleLiteral? r)
    | _, _ => none
  foldOr folded (ls ++ rs.flatten)

end Expr

def Expr.refuseKeywords (keywords : List String) (line : Option Int) : Except Fault Unit :=
  if keywords.isEmpty then .ok () else .error ⟨.keywordArguments keywords, line⟩

mutual

/-- The operands of an expression in reading position. -/
def Expr.operands (e : Expr) : Versioning (List Operand) :=
  match e with
  | .constant v _ => return [.literal v]
  | .name id .load _ => return [.ref (← read id)]
  | .name id .store _ => return [.ref (← write id)]
  | .name _ .del line => refuse (.unhandled "Delete") line
  | .binary op left right _ => do
    let ls ← left.operands
    let rs ← right.operands
    return Expr.binaryOperands op left right ls rs
  | .unary op operand _ => do
    let os ← operand.operands
    return Expr.foldOr ((Operand.singleLiteral? os).bind (Literal.foldUnary? op)) os
  | .boolean _ values _ => return (← operandsOfEach values).flatten
  | .compare left ops comparators _ => do
    let ls ← left.operands
    let rs ← operandsOfEach comparators
    return Expr.compareOperands ops ls rs
  | .call func args keywords line => do
    ofResult (Expr.refuseKeywords keywords line)
    let callee ← ofResult (func.callee line)
    return [.call callee (← operandsOfEach args)]
  | .subscript value index .load line => do
    return [.ref (← read (← ofResult (Expr.subscriptBase value index line)))]
  | .subscript _ _ _ line => refuse .subscriptWrite line
  | .list elements .load _ => return (← operandsOfEach elements).flatten
  | .list _ _ line => refuse (.destructuring "List") line
  | .tuple elements .load _ => return (← operandsOfEach elements).flatten
  | .tuple _ _ line => refuse (.destructuring "Tuple") line
  | .member _ _ _ line => refuse .attributeRead line
  | .unsupported nodeType line => refuse (.unhandled nodeType) line

def Expr.operandsOfEach (es : List Expr) : Versioning (List (List Operand)) :=
  match es with
  | [] => return []
  | e :: rest => do
    let os ← e.operands
    return os :: (← operandsOfEach rest)

end

/-- The callee and the operands of each argument of a call. -/
def Expr.callOperands (func : Expr) (args : List Expr) (keywords : List String)
    (line : Option Int) : Versioning (String × List (List Operand)) := do
  ofResult (Expr.refuseKeywords keywords line)
  let callee ← ofResult (func.callee line)
  return (callee, ← Expr.operandsOfEach args)

/-- A version that is written, and the one of an array that is updated in place. -/
structure Target where
  reference : Reference
  carried : Option Reference
deriving DecidableEq

/-- Names get a new version; a subscript reads the whole array and then gives it a new version. -/
def Expr.target (e : Expr) : Versioning Target :=
  match e with
  | .name id _ _ => return ⟨← write id, none⟩
  | .subscript value index _ line => do
    let base ← ofResult (Expr.subscriptBase value index line)
    let carried ← read base
    return ⟨← write base, some carried⟩
  | .list _ _ line => refuse (.destructuring "List") line
  | .tuple _ _ line => refuse (.destructuring "Tuple") line
  | e => refuse .assignmentTarget e.line

end ProgramGraph
