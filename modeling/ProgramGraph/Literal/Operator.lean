/-! Operators of expressions. -/
namespace ProgramGraph

inductive BinaryOp where
  | add | sub | mult | div | floorDiv | mod | pow
deriving DecidableEq

inductive UnaryOp where
  | neg | pos | not
deriving DecidableEq

inductive BoolOp where
  | and | or
deriving DecidableEq

inductive CompareOp where
  | eq | notEq | lt | ltE | gt | gtE
deriving DecidableEq

namespace BinaryOp

def all : List BinaryOp := [add, sub, mult, div, floorDiv, mod, pow]

/-- The class name of the operator in syntax trees. -/
def name : BinaryOp → String
  | add => "Add"
  | sub => "Sub"
  | mult => "Mult"
  | div => "Div"
  | floorDiv => "FloorDiv"
  | mod => "Mod"
  | pow => "Pow"

def symbol : BinaryOp → String
  | add => "+"
  | sub => "-"
  | mult => "*"
  | div => "/"
  | floorDiv => "//"
  | mod => "%"
  | pow => "**"

def ofName? (s : String) : Option BinaryOp := all.find? (·.name = s)

end BinaryOp

namespace UnaryOp

def all : List UnaryOp := [neg, pos, not]

def name : UnaryOp → String
  | neg => "USub"
  | pos => "UAdd"
  | not => "Not"

def symbol : UnaryOp → String
  | neg => "-"
  | pos => "+"
  | not => "not "

def ofName? (s : String) : Option UnaryOp := all.find? (·.name = s)

end UnaryOp

namespace BoolOp

def all : List BoolOp := [and, or]

def name : BoolOp → String
  | and => "And"
  | or => "Or"

def symbol : BoolOp → String
  | and => "and"
  | or => "or"

def ofName? (s : String) : Option BoolOp := all.find? (·.name = s)

end BoolOp

namespace CompareOp

def all : List CompareOp := [eq, notEq, lt, ltE, gt, gtE]

def name : CompareOp → String
  | eq => "Eq"
  | notEq => "NotEq"
  | lt => "Lt"
  | ltE => "LtE"
  | gt => "Gt"
  | gtE => "GtE"

def symbol : CompareOp → String
  | eq => "=="
  | notEq => "!="
  | lt => "<"
  | ltE => "<="
  | gt => ">"
  | gtE => ">="

def ofName? (s : String) : Option CompareOp := all.find? (·.name = s)

/-- The answer for operands in a given order. -/
def holds : CompareOp → Ordering → Bool
  | eq, o => o.isEq
  | notEq, o => o.isNe
  | lt, o => o.isLT
  | ltE, o => o.isLE
  | gt, o => o.isGT
  | gtE, o => o.isGE

end CompareOp
end ProgramGraph
