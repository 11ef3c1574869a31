import ProgramGraph.Syntax.Basic

/-! Outlines of syntax trees: one node a line, indented by depth. -/
namespace ProgramGraph

private def lineMark : Option Int → String
  | some n => " @" ++ toString n
  | none => ""

/-- The line of a node without its children. -/
def Expr.caption : Expr → String
  | constant v _ => "Constant " ++ v.value.dataText ++ " (" ++ v.domain.keyword ++ ")"
  | name id access _ => "Name " ++ id ++ " [" ++ access.name ++ "]"
  | member _ attr _ _ => "Attribute ." ++ attr
  | binary op _ _ _ => "BinOp " ++ op.name
  | unary op _ _ => "UnaryOp " ++ op.name
  | boolean op _ _ => "BoolOp " ++ op.name
  | compare _ ops _ _ => "Compare " ++ " ".intercalate (ops.map CompareOp.name)
  | call .. => "Call"
  | subscript .. => "Subscript"
  | list .. => "List"
  | tuple .. => "Tuple"
  | unsupported nodeType _ => "Unsupported " ++ nodeType

def Stmt.caption : Stmt → String
  | functionDef name parameters _ _ =>
    "FunctionDef " ++ name ++ "(" ++ ", ".intercalate (parameters.map Parameter.name) ++ ")"
  | assign .. => "Assign"
  | annAssign .. => "AnnAssign"
  | branch .. => "If"
  | loop .. => "For"
  | expr .. => "Expr"
  | unsupported nodeType _ => "Unsupported " ++ nodeType

private def padding (indent : String) (level : Nat) : String :=
  String.join (List.replicate level indent)

mutual

/-- Lines of an expression, itself first and then its parts. -/
def Expr.outline (indent : String) (level : Nat) (e : Expr) : List String :=
  (padding indent level ++ e.caption ++ lineMark e.line) :: match e with
    | .member value _ _ _ => value.outline indent (level + 1)
    | .binary _ left right _ => left.outline indent (level + 1) ++ right.outline indent (level + 1)
    | .unary _ operand _ => operand.outline indent (level + 1)
    | .boolean _ values _ => outlineAll indent (level + 1) values
    | .compare left _ comparators _ =>
      left.outline indent (level + 1) ++ outlineAll indent (level + 1) comparators
    | .call func args _ _ => func.outline indent (level + 1) ++ outlineAll indent (level + 1) args
    | .subscript value index _ _ =>
      value.outline indent (level + 1) ++ index.outline indent (level + 1)
    | .list elements _ _ | .tuple elements _ _ => outlineAll indent (level + 1) elements
    | .constant .. | .name .. | .unsupported .. => []

def Expr.outlineAll (indent : String) (level : Nat) : List Expr → List String
  | [] => []
  | e :: rest => e.outline indent level ++ outlineAll indent level rest

end

mutual

/-- Lines of a statement, itself first and then its parts; parameters show their annotations. -/
def Stmt.outline (indent : String) (level : Nat) (s : Stmt) : List String :=
  (padding indent level ++ s.caption ++ lineMark s.line) :: match s with
    | .functionDef _ parameters body _ =>
      Expr.outlineAll indent (level + 1) (parameters.filterMap Parameter.typeExpr) ++
        outlineAll indent (level + 1) body
    | .assign targets value _ =>
      Expr.outlineAll indent (level + 1) targets ++ value.outline indent (level + 1)
    | .annAssign target typeExpr value _ =>
      target.outline indent (level + 1) ++ typeExpr.outline indent (level + 1) ++
        Expr.outlineAll indent (level + 1) value.toList
    | .branch test body orelse _ =>
      test.outline indent (level + 1) ++ outlineAll indent (level + 1) body ++
        outlineAll indent (level + 1) orelse
    | .loop target iter body orelse _ =>
      target.outline indent (level + 1) ++ iter.outline indent (level + 1) ++
        outlineAll indent (level + 1) body ++ outlineAll indent (level + 1) orelse
    | .expr value _ => value.outline indent (level + 1)
    | .unsupported .. => []

def Stmt.outlineAll (indent : String) (level : Nat) : List Stmt → List String
  | [] => []
  | s :: rest => s.outline indent level ++ outlineAll indent level rest

end

def Module.outline (m : Module) (indent : String) : String :=
  "\n".intercalate ("Module" :: Stmt.outlineAll indent 1 m.body)

def Node.outline (n : Node) (indent : String) : String :=
  match n with
  | .tree m => m.outline indent
  | .stmt s => "\n".intercalate (s.outline indent 0)
  | .expr e => "\n".intercalate (e.outline indent 0)

end ProgramGraph
