import ProgramGraph.Fault
import ProgramGraph.Syntax.Basic

/-! Value domains of annotations. -/
namespace ProgramGraph

/-- The element annotation of a list annotation. -/
def Expr.unwrapList : Expr → Expr
  | subscript (name "List" _ _) index _ _ | subscript (name "list" _ _) index _ _ => index
  | e => e

/-- The domain that an annotation names, bare or wrapped in a list. -/
def Expr.annotatedDomain? (typeExpr : Expr) : Option Domain :=
  match typeExpr.unwrapList with
  | name id _ _ => Domain.ofKeyword? id
  | _ => none

/-- The domain of a subject with an annotation. A failure shows the given line, or else that of
the annotation. -/
def Expr.annotatedDomain (typeExpr : Option Expr) (subject : String) (line : Option Int) :
    Except Fault Domain :=
  match typeExpr with
  | none => .error ⟨.untyped subject, line⟩
  | some a =>
    match a.annotatedDomain? with
    | some d => .ok d
    | none => .error ⟨.unknownType subject, line <|> a.line⟩

end ProgramGraph
