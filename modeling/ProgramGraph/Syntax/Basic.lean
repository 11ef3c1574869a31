import ProgramGraph.Literal.Basic
import ProgramGraph.Literal.Operator

/-! Syntax trees of the supported subset. Whatever lies outside it is one leaf that keeps the
name of its class. -/
namespace ProgramGraph

/-- What an expression in its place does to the value it denotes. -/
inductive Access where
  | load | store | del
deriving DecidableEq

def Access.name : Access → String
  | load => "load"
  | store => "store"
  | del => "del"

inductive Expr where
  | constant (value : Literal) (line : Option Int)
  | name (id : String) (access : Access) (line : Option Int)
  | member (value : Expr) (attr : String) (access : Access) (line : Option Int)
  | binary (op : BinaryOp) (left right : Expr) (line : Option Int)
  | unary (op : UnaryOp) (operand : Expr) (line : Option Int)
  | boolean (op : BoolOp) (values : List Expr) (line : Option Int)
  | compare (left : Expr) (ops : List CompareOp) (comparators : List Expr) (line : Option Int)
  | call (func : Expr) (args : List Expr) (keywords : List String) (line : Option Int)
  | subscript (value index : Expr) (access : Access) (line : Option Int)
  | list (elements : List Expr) (access : Access) (line : Option Int)
  | tuple (elements : List Expr) (access : Access) (line : Option Int)
  | unsupported (nodeType : String) (line : Option Int)

structure Parameter where
  name : String
  typeExpr : Option Expr
  line : Option Int

inductive Stmt where
  | functionDef (name : String) (parameters : List Parameter) (body : List Stmt) (line : Option Int)
  | assign (targets : List Expr) (value : Expr) (line : Option Int)
  | annAssign (target typeExpr : Expr) (value : Option Expr) (line : Option Int)
  | branch (test : Expr) (body orelse : List Stmt) (line : Option Int)
  | loop (target iter : Expr) (body orelse : List Stmt) (line : Option Int)
  | expr (value : Expr) (line : Option Int)
  | unsupported (nodeType : String) (line : Option Int)

structure Module where
  body : List Stmt

inductive Node where
  | tree (m : Module)
  | stmt (s : Stmt)
  | expr (e : Expr)

namespace Expr

instance : Inhabited Expr := ⟨unsupported "" none⟩

def line : Expr → Option Int
  | constant _ n | name _ _ n | member _ _ _ n | binary _ _ _ n | unary _ _ n | boolean _ _ n
  | compare _ _ _ n | call _ _ _ n | subscript _ _ _ n | list _ _ n | tuple _ _ n
  | unsupported _ n => n

/-- The class name of the node. -/
def typeName : Expr → String
  | constant .. => "Constant"
  | name .. => "Name"
  | member .. => "Attribute"
  | binary .. => "BinOp"
  | unary .. => "UnaryOp"
  | boolean .. => "BoolOp"
  | compare .. => "Compare"
  | call .. => "Call"
  | subscript .. => "Subscript"
  | list .. => "List"
  | tuple .. => "Tuple"
  | unsupported nodeType _ => nodeType

end Expr

namespace Stmt

def line : Stmt → Option Int
  | functionDef _ _ _ n | assign _ _ n | annAssign _ _ _ n | branch _ _ _ n | loop _ _ _ _ n
  | expr _ n | unsupported _ n => n

/-- The class name of the node. -/
def typeName : Stmt → String
  | functionDef .. => "FunctionDef"
  | assign .. => "Assign"
  | annAssign .. => "AnnAssign"
  | branch .. => "If"
  | loop .. => "For"
  | expr .. => "Expr"
  | unsupported nodeType _ => nodeType

end Stmt

def Node.typeName : Node → String
  | tree _ => "Module"
  | stmt s => s.typeName
  | expr e => e.typeName

end ProgramGraph
