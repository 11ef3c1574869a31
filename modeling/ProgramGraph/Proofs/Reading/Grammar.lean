import ProgramGraph.Proofs.Reading.Nodes

/-! The grammar of data trees: what the members of a node have to be, by what the node is read as
and by its class. -/
namespace ProgramGraph

/-- What a value has to be by itself, whatever stands in it. -/
inductive Wanted where
  | object
  | program
  | text
  | optionalText
  | textOrNull
  | number
  | scalar
  /-- Nothing, or an integer that is told apart from its neighbours. -/
  | line
  | list
  | optionalList
deriving DecidableEq

def Wanted.fits : Wanted → Option Json → Bool
  | object, some (.object _) => true
  | program, some j => j.nodeType? = some "Module"
  | text, some (.string _) => true
  | optionalText, none | optionalText, some (.string _) => true
  | textOrNull, some .null | textOrNull, some (.string _) => true
  | number, some (.number _) => true
  | scalar, some .null | scalar, some (.bool _) | scalar, some (.number _)
  | scalar, some (.string _) => true
  | line, none => true
  | line, some (.number x) => x.toInt?.any Binary64.isSafe
  | list, some (.array _) => true
  | optionalList, none | optionalList, some (.array _) => true
  | _, _ => false

/-- What a value is read as. An index is the node in a subscript, which may wrap an expression. -/
inductive Role where
  | program
  | statement
  | expression
  | index
  | parameter
  | parameters
  | operator
  | keyword
deriving DecidableEq

/-- What a member is. -/
inductive Slot where
  | plain (w : Wanted)
  | node (r : Role)
  /-- Nothing where it is absent or null. -/
  | optional (r : Role)
  | nodes (r : Role)
  /-- Nothing where it is absent. -/
  | optionalNodes (r : Role)
deriving DecidableEq

namespace Role

def self : Role → Wanted
  | program => .program
  | _ => .object

/-- Parameter lists and keywords are objects, but no class is asked of them. -/
def header : Role → List (String × Slot)
  | parameters | keyword => []
  | _ => [("_type", .plain .text), ("lineno", .plain .line)]

def statementSlots : String → List (String × Slot)
  | "FunctionDef" =>
    [("name", .plain .text), ("args", .node parameters), ("body", .nodes statement)]
  | "Assign" => [("targets", .nodes expression), ("value", .node expression)]
  | "AnnAssign" =>
    [("target", .node expression), ("annotation", .node expression),
      ("value", .optional expression)]
  | "If" => [("test", .node expression), ("body", .nodes statement), ("orelse", .nodes statement)]
  | "For" =>
    [("target", .node expression), ("iter", .node expression), ("body", .nodes statement),
      ("orelse", .nodes statement)]
  | "Expr" => [("value", .node expression)]
  | _ => []

def expressionSlots : String → List (String × Slot)
  | "Constant" | "NameConstant" => [("value", .plain .scalar), ("_valueType", .plain .optionalText)]
  | "Num" => [("n", .plain .number)]
  | "Str" => [("s", .plain .text)]
  | "Name" => [("id", .plain .text)]
  | "Attribute" => [("value", .node expression), ("attr", .plain .text)]
  | "BinOp" => [("left", .node expression), ("op", .node operator), ("right", .node expression)]
  | "UnaryOp" => [("op", .node operator), ("operand", .node expression)]
  | "BoolOp" => [("op", .node operator), ("values", .nodes expression)]
  | "Compare" =>
    [("left", .node expression), ("ops", .nodes operator), ("comparators", .nodes expression)]
  | "Call" =>
    [("func", .node expression), ("args", .nodes expression),
      ("keywords", .optionalNodes keyword)]
  | "Subscript" => [("value", .node expression), ("slice", .node index)]
  | "List" | "Tuple" => [("elts", .nodes expression)]
  | _ => []

/-- The members of a node of a class, besides its header. -/
def slots (r : Role) (type : String) : List (String × Slot) :=
  match r with
  | program => if type = "Module" then [("body", .nodes statement)] else []
  | statement => statementSlots type
  | expression => expressionSlots type
  | index => if type = "Index" then [("value", .node expression)] else expressionSlots type
  | parameter => [("arg", .plain .text), ("annotation", .optional expression)]
  | parameters =>
    [("args", .nodes parameter), ("posonlyargs", .plain .optionalList),
      ("kwonlyargs", .plain .optionalList)]
  | operator => []
  | keyword => [("arg", .plain .textOrNull)]

/-- All keys of members besides those of headers. -/
def keys : List String :=
  ["name", "args", "body", "targets", "value", "target", "annotation", "test", "orelse", "iter",
    "_valueType", "n", "s", "id", "attr", "left", "op", "right", "operand", "values", "ops",
    "comparators", "func", "keywords", "slice", "elts", "arg", "posonlyargs", "kwonlyargs"]

theorem mem_keys_of_mem_slots (r : Role) (type : String) : ∀ p ∈ r.slots type, p.1 ∈ keys := by
  have hstatement : ∀ p ∈ statementSlots type, p.1 ∈ keys := by
    unfold statementSlots
    split <;> decide
  have hexpression : ∀ p ∈ expressionSlots type, p.1 ∈ keys := by
    unfold expressionSlots
    split <;> decide
  cases r with
  | statement => exact hstatement
  | expression => exact hexpression
  | index =>
    rw [slots]
    split
    · decide
    · exact hexpression
  | program =>
    rw [slots]
    split <;> decide
  | parameter | parameters | operator | keyword =>
    rw [slots]
    decide

/-- An index that is no `Index` is an expression. -/
theorem slots_index {j : Json} (h : j.nodeType? ≠ some "Index") :
    index.slots (j.nodeType?.getD "") = expressionSlots (j.nodeType?.getD "") := by
  change (if _ = "Index" then _ else _) = _
  rw [if_neg]
  cases hj : j.nodeType? with
  | none => decide
  | some type =>
    rintro rfl
    exact h hj

end Role

/-- A member that a value has in its role. -/
def Json.HasSlot (j : Json) (r : Role) (key : String) (slot : Slot) : Prop :=
  (key, slot) ∈ r.header ∨ (key, slot) ∈ r.slots (j.nodeType?.getD "")

end ProgramGraph
