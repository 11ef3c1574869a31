import ProgramGraph.Proofs.Literals.Flattening
import ProgramGraph.Proofs.Reading.Nodes

/-! Programs as data trees: a node is an object with its class name, its fields, and its line if it
has one. A tree renders a program if it holds what the program says; what else it holds, such as
the values of keywords and the comments on types, is open. -/
namespace ProgramGraph

namespace Json

def node (type : String) (line : Option Int) (fields : List (String × Json)) : Json :=
  .object (("_type", .string type) :: fields ++ line.toList.map fun n => ("lineno", .ofInt n))

/-- The name of a keyword; two stars stand for none. -/
def keywordName (name : String) : Json := if name = "**" then .null else .string name

/-- A keyword, and some value since programs do not keep it. -/
def keyword (name : String) : Json :=
  .node "keyword" none [("arg", keywordName name), ("value", .node "Constant" none [])]

structure IsNode (j : Json) (type : String) (line : Option Int) : Prop where
  type : j.member? "_type" = some (.string type)
  line : j.member? "lineno" = line.map .ofInt

/-- A member is there and satisfies a condition. -/
def Holds (j : Json) (key : String) (P : Json → Prop) : Prop := ∃ v, j.member? key = some v ∧ P v

/-- A member is an array whose items satisfy a condition. -/
def HoldsList (j : Json) (key : String) (P : List Json → Prop) : Prop :=
  ∃ vs, j.member? key = some (.array vs) ∧ P vs

section
variable {type key : String} {line : Option Int} {fields : List (String × Json)}

theorem isNode_node (h : fields.lookup "lineno" = none) :
    (node type line fields).IsNode type line := by
  constructor
  · rfl
  · cases line <;> simp [node, member?, List.lookup_cons, List.lookup_append, h]

theorem member?_node {v : Json} (h : (("_type", .string type) :: fields).lookup key = some v) :
    (node type line fields).member? key = some v := by
  rw [node, member?, List.lookup_append, h]
  rfl

theorem holds_node {P : Json → Prop} {v : Json}
    (h : (("_type", .string type) :: fields).lookup key = some v) (hv : P v) :
    (node type line fields).Holds key P :=
  ⟨v, member?_node h, hv⟩

theorem holdsList_node {P : List Json → Prop} {vs : List Json}
    (h : (("_type", .string type) :: fields).lookup key = some (.array vs)) (hvs : P vs) :
    (node type line fields).HoldsList key P :=
  ⟨vs, member?_node h, hvs⟩

theorem has_node (h : (("_type", .string type) :: fields).lookup key = some .null) :
    (node type line fields).has key = false := by
  rw [has, member?_node h]

end
end Json

def Scalar.toJson : Scalar → Json
  | number x => .number x
  | string s => .string s
  | bool b => .bool b

/-- The class name of the access. -/
def Access.nodeType : Access → String
  | load => "Load"
  | store => "Store"
  | del => "Del"

def Access.toJson (a : Access) : Json := .node a.nodeType none []

def Access.RenderedAs (a : Access) (j : Json) : Prop := j.IsNode a.nodeType none

namespace Expr

/-- Classes of nodes that are read as more than a leaf. -/
def classes : List String :=
  ["Constant", "NameConstant", "Num", "Str", "Name", "Attribute", "BinOp", "UnaryOp", "BoolOp",
    "Compare", "Call", "Subscript", "List", "Tuple"]

/-- Whether a node can be told from its rendering. An index is not of the class that wraps
indices. -/
def isRenderable (e : Expr) : Bool :=
  e.line.all Binary64.isSafe && match e with
  | constant l _ => Reading.admits l.domain l.value
  | subscript _ index _ _ => index.typeName ≠ "Index"
  | unsupported nodeType _ => !classes.contains nodeType
  | _ => true

end Expr

mutual

def Expr.toJson (e : Expr) : Json :=
  .node e.typeName e.line <| match e with
  | .constant l _ => [("value", l.value.toJson), ("_valueType", .string l.domain.keyword),
      ("kind", .null)]
  | .name id access _ => [("id", .string id), ("ctx", access.toJson)]
  | .member value attr access _ => [("value", value.toJson), ("attr", .string attr),
      ("ctx", access.toJson)]
  | .binary op left right _ => [("left", left.toJson), ("op", .node op.name none []),
      ("right", right.toJson)]
  | .unary op operand _ => [("op", .node op.name none []), ("operand", operand.toJson)]
  | .boolean op values _ => [("op", .node op.name none []),
      ("values", .array (toJsonOfEach values))]
  | .compare left ops comparators _ => [("left", left.toJson),
      ("ops", .array (ops.map fun op => .node op.name none [])),
      ("comparators", .array (toJsonOfEach comparators))]
  | .call func args keywords _ => [("func", func.toJson), ("args", .array (toJsonOfEach args)),
      ("keywords", .array (keywords.map Json.keyword))]
  | .subscript value index access _ => [("value", value.toJson), ("slice", index.toJson),
      ("ctx", access.toJson)]
  | .list elements access _ | .tuple elements access _ =>
    [("elts", .array (toJsonOfEach elements)), ("ctx", access.toJson)]
  | .unsupported .. => []

def Expr.toJsonOfEach (es : List Expr) : List Json :=
  match es with
  | [] => []
  | e :: rest => e.toJson :: toJsonOfEach rest

end

mutual

/-- A tree that holds what an expression says. -/
def Expr.RenderedAs (e : Expr) (j : Json) : Prop :=
  j.IsNode e.typeName e.line ∧ match e with
  | .constant l _ => j.member? "value" = some l.value.toJson ∧
      j.member? "_valueType" = some (.string l.domain.keyword)
  | .name id access _ => j.member? "id" = some (.string id) ∧ j.Holds "ctx" access.RenderedAs
  | .member value attr access _ => j.Holds "value" value.RenderedAs ∧
      j.member? "attr" = some (.string attr) ∧ j.Holds "ctx" access.RenderedAs
  | .binary op left right _ => j.Holds "left" left.RenderedAs ∧
      j.Holds "op" (·.IsNode op.name none) ∧ j.Holds "right" right.RenderedAs
  | .unary op operand _ => j.Holds "op" (·.IsNode op.name none) ∧
      j.Holds "operand" operand.RenderedAs
  | .boolean op values _ => j.Holds "op" (·.IsNode op.name none) ∧
      j.HoldsList "values" (RenderedAsEach values)
  | .compare left ops comparators _ => j.Holds "left" left.RenderedAs ∧
      j.HoldsList "ops" (List.Forall₂ (fun op v => v.IsNode op.name none) ops) ∧
      j.HoldsList "comparators" (RenderedAsEach comparators)
  | .call func args keywords _ => j.Holds "func" func.RenderedAs ∧
      j.HoldsList "args" (RenderedAsEach args) ∧
      j.HoldsList "keywords" (List.Forall₂ (fun k v => v.member? "arg" = some (.keywordName k))
        keywords)
  | .subscript value index access _ => j.Holds "value" value.RenderedAs ∧
      j.Holds "slice" index.RenderedAs ∧ j.Holds "ctx" access.RenderedAs
  | .list elements access _ | .tuple elements access _ =>
    j.HoldsList "elts" (RenderedAsEach elements) ∧ j.Holds "ctx" access.RenderedAs
  | .unsupported .. => True

def Expr.RenderedAsEach (es : List Expr) (js : List Json) : Prop :=
  match es, js with
  | [], [] => True
  | e :: es, j :: js => e.RenderedAs j ∧ RenderedAsEach es js
  | _, _ => False

end

/-- An expression that is there, or nothing. -/
def Json.HoldsOptional (j : Json) (key : String) (e : Option Expr) : Prop :=
  match e with
  | none => j.has key = false
  | some e => j.Holds key e.RenderedAs

namespace Parameter

def isRenderable (p : Parameter) : Bool :=
  p.line.all Binary64.isSafe && p.typeExpr.all fun e => e.All Expr.isRenderable

def toJson (p : Parameter) : Json :=
  .node "arg" p.line [("arg", .string p.name),
    ("annotation", (p.typeExpr.map Expr.toJson).getD .null), ("type_comment", .null)]

def RenderedAs (p : Parameter) (j : Json) : Prop :=
  j.IsNode "arg" p.line ∧ j.member? "arg" = some (.string p.name) ∧
    j.HoldsOptional "annotation" p.typeExpr

/-- The parameters of a definition, all of them positional and without defaults. -/
def listToJson (parameters : List Parameter) : Json :=
  .node "arguments" none [("posonlyargs", .array []), ("args", .array (parameters.map toJson)),
    ("vararg", .null), ("kwonlyargs", .array []), ("kw_defaults", .array []), ("kwarg", .null),
    ("defaults", .array [])]

structure ListRenderedAs (parameters : List Parameter) (j : Json) : Prop where
  positional : j.HoldsList "args" (List.Forall₂ RenderedAs parameters)
  positionOnly : j.member? "posonlyargs" = some (.array [])
  keywordOnly : j.member? "kwonlyargs" = some (.array [])
  variadic : j.has "vararg" = false
  keywords : j.has "kwarg" = false

end Parameter

/-- Classes of nodes that are read as more than a leaf. -/
def Stmt.classes : List String :=
  ["FunctionDef", "Assign", "AnnAssign", "If", "For", "Expr"]

mutual

/-- Whether a statement can be told from its rendering. -/
def Stmt.isRenderable (s : Stmt) : Bool :=
  s.line.all Binary64.isSafe && match s with
  | .functionDef _ parameters body _ =>
    parameters.all Parameter.isRenderable && eachRenderable body
  | .assign targets value _ =>
    (targets.all fun e => e.All Expr.isRenderable) && value.All Expr.isRenderable
  | .annAssign target typeExpr value _ =>
    target.All Expr.isRenderable && typeExpr.All Expr.isRenderable &&
      value.all fun e => e.All Expr.isRenderable
  | .branch test body orelse _ =>
    test.All Expr.isRenderable && eachRenderable body && eachRenderable orelse
  | .loop target iter body orelse _ =>
    target.All Expr.isRenderable && iter.All Expr.isRenderable && eachRenderable body &&
      eachRenderable orelse
  | .expr value _ => value.All Expr.isRenderable
  | .unsupported nodeType _ => !classes.contains nodeType

def Stmt.eachRenderable (block : List Stmt) : Bool :=
  match block with
  | [] => true
  | s :: rest => s.isRenderable && eachRenderable rest

end

mutual

def Stmt.toJson (s : Stmt) : Json :=
  .node s.typeName s.line <| match s with
  | .functionDef name parameters body _ => [("name", .string name),
      ("args", Parameter.listToJson parameters), ("body", .array (toJsonOfEach body)),
      ("decorator_list", .array []), ("returns", .null), ("type_comment", .null)]
  | .assign targets value _ => [("targets", .array (Expr.toJsonOfEach targets)),
      ("value", value.toJson), ("type_comment", .null)]
  | .annAssign target typeExpr value _ => [("target", target.toJson),
      ("annotation", typeExpr.toJson), ("value", (value.map Expr.toJson).getD .null),
      ("simple", .ofInt (if target.identifier?.isSome then 1 else 0))]
  | .branch test body orelse _ => [("test", test.toJson), ("body", .array (toJsonOfEach body)),
      ("orelse", .array (toJsonOfEach orelse))]
  | .loop target iter body orelse _ => [("target", target.toJson), ("iter", iter.toJson),
      ("body", .array (toJsonOfEach body)), ("orelse", .array (toJsonOfEach orelse)),
      ("type_comment", .null)]
  | .expr value _ => [("value", value.toJson)]
  | .unsupported .. => []

def Stmt.toJsonOfEach (block : List Stmt) : List Json :=
  match block with
  | [] => []
  | s :: rest => s.toJson :: toJsonOfEach rest

end

mutual

/-- A tree that holds what a statement says. -/
def Stmt.RenderedAs (s : Stmt) (j : Json) : Prop :=
  j.IsNode s.typeName s.line ∧ match s with
  | .functionDef name parameters body _ => j.member? "name" = some (.string name) ∧
      j.Holds "args" (Parameter.ListRenderedAs parameters) ∧
      j.HoldsList "body" (RenderedAsEach body)
  | .assign targets value _ => j.HoldsList "targets" (Expr.RenderedAsEach targets) ∧
      j.Holds "value" value.RenderedAs
  | .annAssign target typeExpr value _ => j.Holds "target" target.RenderedAs ∧
      j.Holds "annotation" typeExpr.RenderedAs ∧ j.HoldsOptional "value" value
  | .branch test body orelse _ => j.Holds "test" test.RenderedAs ∧
      j.HoldsList "body" (RenderedAsEach body) ∧ j.HoldsList "orelse" (RenderedAsEach orelse)
  | .loop target iter body orelse _ => j.Holds "target" target.RenderedAs ∧
      j.Holds "iter" iter.RenderedAs ∧ j.HoldsList "body" (RenderedAsEach body) ∧
      j.HoldsList "orelse" (RenderedAsEach orelse)
  | .expr value _ => j.Holds "value" value.RenderedAs
  | .unsupported .. => True

def Stmt.RenderedAsEach (block : List Stmt) (js : List Json) : Prop :=
  match block, js with
  | [], [] => True
  | s :: rest, j :: js => s.RenderedAs j ∧ RenderedAsEach rest js
  | _, _ => False

end

namespace Module

/-- Lines are safe integers, constants are of the domain declared for them, and leaves are of
classes that are read as leaves. -/
def isRenderable (m : Module) : Bool := Stmt.eachRenderable m.body

def toJson (m : Module) : Json :=
  .node "Module" none [("body", .array (Stmt.toJsonOfEach m.body)), ("type_ignores", .array [])]

def RenderedAs (m : Module) (j : Json) : Prop :=
  j.IsNode "Module" none ∧ j.HoldsList "body" (Stmt.RenderedAsEach m.body)

end Module

open Json

theorem forall₂_isNode {α : Type} {name : α → String} (as : List α) :
    List.Forall₂ (fun a v => v.IsNode (name a) none) as (as.map fun a => node (name a) none []) :=
  List.forall₂_map_right_iff.mpr (List.forall₂_same.mpr fun _ _ => isNode_node rfl)

theorem forall₂_keywordName (keywords : List String) :
    List.Forall₂ (fun k v => v.member? "arg" = some (keywordName k)) keywords
      (keywords.map Json.keyword) :=
  List.forall₂_map_right_iff.mpr (List.forall₂_same.mpr fun _ _ => member?_node rfl)

theorem Access.renderedAs_toJson (a : Access) : a.RenderedAs a.toJson := isNode_node rfl

mutual

theorem Expr.renderedAs_toJson (e : Expr) : e.RenderedAs e.toJson := by
  cases e with
  | constant l line =>
    rw [toJson, RenderedAs]
    exact ⟨isNode_node rfl, member?_node rfl, member?_node rfl⟩
  | name id access line =>
    rw [toJson, RenderedAs]
    exact ⟨isNode_node rfl, member?_node rfl, holds_node rfl access.renderedAs_toJson⟩
  | member value attr access line =>
    have hvalue := value.renderedAs_toJson
    rw [toJson, RenderedAs]
    exact ⟨isNode_node rfl, holds_node rfl hvalue, member?_node rfl,
      holds_node rfl access.renderedAs_toJson⟩
  | binary op left right line =>
    have hleft := left.renderedAs_toJson
    have hright := right.renderedAs_toJson
    rw [toJson, RenderedAs]
    exact ⟨isNode_node rfl, holds_node rfl hleft, holds_node rfl (isNode_node rfl),
      holds_node rfl hright⟩
  | unary op operand line =>
    have hoperand := operand.renderedAs_toJson
    rw [toJson, RenderedAs]
    exact ⟨isNode_node rfl, holds_node rfl (isNode_node rfl), holds_node rfl hoperand⟩
  | boolean op values line =>
    have hvalues := renderedAs_toJsonOfEach values
    rw [toJson, RenderedAs]
    exact ⟨isNode_node rfl, holds_node rfl (isNode_node rfl), holdsList_node rfl hvalues⟩
  | compare left ops comparators line =>
    have hleft := left.renderedAs_toJson
    have hcomparators := renderedAs_toJsonOfEach comparators
    rw [toJson, RenderedAs]
    exact ⟨isNode_node rfl, holds_node rfl hleft, holdsList_node rfl (forall₂_isNode ops),
      holdsList_node rfl hcomparators⟩
  | call func args keywords line =>
    have hfunc := func.renderedAs_toJson
    have hargs := renderedAs_toJsonOfEach args
    rw [toJson, RenderedAs]
    exact ⟨isNode_node rfl, holds_node rfl hfunc, holdsList_node rfl hargs,
      holdsList_node rfl (forall₂_keywordName keywords)⟩
  | subscript value index access line =>
    have hvalue := value.renderedAs_toJson
    have hindex := index.renderedAs_toJson
    rw [toJson, RenderedAs]
    exact ⟨isNode_node rfl, holds_node rfl hvalue, holds_node rfl hindex,
      holds_node rfl access.renderedAs_toJson⟩
  | list elements access line | tuple elements access line =>
    have helements := renderedAs_toJsonOfEach elements
    rw [toJson, RenderedAs]
    exact ⟨isNode_node rfl, holdsList_node rfl helements, holds_node rfl access.renderedAs_toJson⟩
  | unsupported nodeType line =>
    rw [toJson, RenderedAs]
    exact ⟨isNode_node rfl, trivial⟩

theorem Expr.renderedAs_toJsonOfEach (es : List Expr) : RenderedAsEach es (toJsonOfEach es) := by
  cases es with
  | nil => trivial
  | cons e rest => exact ⟨e.renderedAs_toJson, renderedAs_toJsonOfEach rest⟩

end

theorem holdsOptional_node {type key : String} {line : Option Int} {fields : List (String × Json)}
    {e : Option Expr}
    (h : (("_type", .string type) :: fields).lookup key = some ((e.map Expr.toJson).getD .null)) :
    (node type line fields).HoldsOptional key e := by
  cases e with
  | none => exact has_node h
  | some e => exact holds_node h e.renderedAs_toJson

namespace Parameter

theorem renderedAs_toJson (p : Parameter) : p.RenderedAs p.toJson :=
  ⟨isNode_node rfl, member?_node rfl, holdsOptional_node rfl⟩

theorem listRenderedAs_listToJson (parameters : List Parameter) :
    ListRenderedAs parameters (listToJson parameters) := by
  have hpositional : List.Forall₂ RenderedAs parameters (parameters.map toJson) :=
    List.forall₂_map_right_iff.mpr (List.forall₂_same.mpr fun p _ => p.renderedAs_toJson)
  constructor
  · exact holdsList_node rfl hpositional
  · exact member?_node rfl
  · exact member?_node rfl
  · exact has_node rfl
  · exact has_node rfl

end Parameter

mutual

theorem Stmt.renderedAs_toJson (s : Stmt) : s.RenderedAs s.toJson := by
  cases s with
  | functionDef name parameters body line =>
    have hparameters := Parameter.listRenderedAs_listToJson parameters
    have hbody := renderedAs_toJsonOfEach body
    rw [toJson, RenderedAs]
    exact ⟨isNode_node rfl, member?_node rfl, holds_node rfl hparameters,
      holdsList_node rfl hbody⟩
  | assign targets value line =>
    have htargets := Expr.renderedAs_toJsonOfEach targets
    have hvalue := value.renderedAs_toJson
    rw [toJson, RenderedAs]
    exact ⟨isNode_node rfl, holdsList_node rfl htargets, holds_node rfl hvalue⟩
  | annAssign target typeExpr value line =>
    have htarget := target.renderedAs_toJson
    have htype := typeExpr.renderedAs_toJson
    rw [toJson, RenderedAs]
    exact ⟨isNode_node rfl, holds_node rfl htarget, holds_node rfl htype, holdsOptional_node rfl⟩
  | branch test body orelse line =>
    have htest := test.renderedAs_toJson
    have hbody := renderedAs_toJsonOfEach body
    have horelse := renderedAs_toJsonOfEach orelse
    rw [toJson, RenderedAs]
    exact ⟨isNode_node rfl, holds_node rfl htest, holdsList_node rfl hbody,
      holdsList_node rfl horelse⟩
  | loop target iter body orelse line =>
    have htarget := target.renderedAs_toJson
    have hiter := iter.renderedAs_toJson
    have hbody := renderedAs_toJsonOfEach body
    have horelse := renderedAs_toJsonOfEach orelse
    rw [toJson, RenderedAs]
    exact ⟨isNode_node rfl, holds_node rfl htarget, holds_node rfl hiter,
      holdsList_node rfl hbody, holdsList_node rfl horelse⟩
  | expr value line =>
    have hvalue := value.renderedAs_toJson
    rw [toJson, RenderedAs]
    exact ⟨isNode_node rfl, holds_node rfl hvalue⟩
  | unsupported nodeType line =>
    rw [toJson, RenderedAs]
    exact ⟨isNode_node rfl, trivial⟩

theorem Stmt.renderedAs_toJsonOfEach (block : List Stmt) :
    RenderedAsEach block (toJsonOfEach block) := by
  cases block with
  | nil => trivial
  | cons s rest => exact ⟨s.renderedAs_toJson, renderedAs_toJsonOfEach rest⟩

end

/-- The rendering of a module holds what the module says. -/
theorem Module.renderedAs_toJson (m : Module) : m.RenderedAs m.toJson :=
  ⟨isNode_node rfl, holdsList_node rfl (Stmt.renderedAs_toJsonOfEach m.body)⟩

end ProgramGraph
