import ProgramGraph.Diagnostic
import ProgramGraph.Json.Parser
import ProgramGraph.Shape.Checked
import ProgramGraph.Syntax.Basic
import ProgramGraph.Text.Blank

/-! Reading syntax trees from data trees. Nodes are objects with their class name under `_type`;
a class outside the subset is kept as a leaf, a tree that is no syntax tree is malformed. -/
namespace ProgramGraph

open Shape

/-- A place in a data tree, below a root that has a name. -/
structure Place where
  root : String
  segments : List Segment := []
deriving DecidableEq

namespace Place

def top : Place := ⟨"$", []⟩

def under (p : Place) (path : List Segment) : Place := { p with segments := p.segments ++ path }

def key (p : Place) (k : String) : Place := p.under [.key k]

def item (p : Place) (i : Nat) : Place := p.under [.index i]

def text (p : Place) : String :=
  ".".intercalate (p.root :: p.segments.map Segment.text)

end Place

/-- Why a data tree is no syntax tree. -/
inductive Malformation where
  | shape (v : Violation)
  | notModule (found : String)
  | notData
deriving DecidableEq

def Malformation.message : Malformation → String
  | shape v => v.message
  | notModule found => "expected Module, got " ++ found
  | notData => "not valid JSON"

structure Malformed where
  place : Place
  cause : Malformation
deriving DecidableEq

def Malformed.diagnostic (m : Malformed) : Diagnostic :=
  .invalidTree m.place.text m.cause.message

namespace Reading

abbrev Result (α : Type) := Except Malformed α

/-- The first issue of a check is the one reported. -/
def settle {α : Type} (place : Place) : Checked α → Result α
  | .ok a => .ok a
  | .failed (i :: _) => .error ⟨place.under i.path, .shape i.violation⟩
  | .failed [] => .error ⟨place, .shape .alternatives⟩

/-- A strict part of a data tree. -/
abbrev Part (j : Json) := { v : Json // sizeOf v < sizeOf j }

theorem sizeOf_part_lt {j : Json} (p : Part j) : sizeOf p.1 < sizeOf j := p.2

private theorem mem_of_lookup_eq_some {k : String} {v : Json} :
    ∀ {members : List (String × Json)}, members.lookup k = some v → (k, v) ∈ members
  | [], h => by simp at h
  | (k', v') :: rest, h => by
    rw [List.lookup_cons] at h
    split at h
    · rename_i hk
      simp only [Option.some.injEq] at h
      simp [← h, eq_of_beq hk]
    · exact List.mem_cons_of_mem _ (mem_of_lookup_eq_some h)

theorem sizeOf_lt_of_member? {j v : Json} {key : String} (h : j.member? key = some v) :
    sizeOf v < sizeOf j := by
  cases j with
  | object members =>
    have hs := List.sizeOf_lt_of_mem (mem_of_lookup_eq_some h)
    simp only [Prod.mk.sizeOf_spec, Json.object.sizeOf_spec] at hs ⊢
    omega
  | _ => simp [Json.member?] at h

def member? (j : Json) (key : String) : Option (Part j) :=
  match h : j.member? key with
  | some v => some ⟨v, sizeOf_lt_of_member? h⟩
  | none => none

/-- The items of a part that is an array, as parts of the whole. -/
def items? {j : Json} (p : Part j) : Option (List (Part j)) :=
  match h : p.1 with
  | .array items => some <| items.attach.map fun v => ⟨v.1, by
      have hp := p.2
      have hs := List.sizeOf_lt_of_mem v.2
      simp only [h, Json.array.sizeOf_spec] at hp
      omega⟩
  | _ => none

/-- A member that has a shape of its own. -/
def field {α : Type} (j : Json) (place : Place) (key : String) (shape : Of α) : Result α :=
  settle (place.key key) (shape (j.member? key))

/-- A member that must be there. -/
def required (j : Json) (place : Place) (key : String) : Result (Part j) :=
  match member? j key with
  | some p => .ok p
  | none => settle (place.key key) (mistyped .something none)

/-- A member that is nothing when it is absent or null. -/
def present? (j : Json) (key : String) : Option (Part j) :=
  (member? j key).filter fun p => match p.1 with
    | .null => false
    | _ => true

def list (j : Json) (place : Place) (key : String) : Result (List (Part j)) :=
  match (member? j key).bind items? with
  | some ps => .ok ps
  | none => settle (place.key key) (mistyped .array (j.member? key))

/-- What every node carries. -/
structure Header where
  type : String
  line : Option Int

def header : Of Header :=
  record fun ms => Header.mk <$> member ms "_type" string <*> member ms "lineno" (optional int)

/-- A missing or misshapen context counts as a load. -/
def access (j : Option Json) : Access :=
  match header j with
  | .ok h => if h.type = "Store" then .store else if h.type = "Del" then .del else .load
  | .failed _ => .load

/-- Read each item at its place. -/
def each {α β : Type} (place : Place) (items : List α) (read : α → Place → Result β) :
    Result (List β) :=
  items.zipIdx.mapM fun (a, i) => read a (place.item i)

/-- A number, a text, a truth value, or `none` for null. -/
def constantValue : Of (Option Scalar)
  | some .null => .ok none
  | some (.number x) => .ok (some (.number x))
  | some (.string s) => .ok (some (.string s))
  | some (.bool b) => .ok (some (.bool b))
  | _ => .violation .alternatives

def number : Of Binary64
  | some (.number x) => .ok x
  | j => mistyped .number j

/-- A list of anything, which counts by its length. -/
def count : Of Nat
  | some (.array items) => .ok items.length
  | j => mistyped .array j

def numberDomain (x : Binary64) : Domain := if x.isInteger then .integer else .real

/-- The domain of a value that comes without one. -/
def inferredDomain : Scalar → Domain
  | .bool _ => .boolean
  | .string _ => .string
  | .number x => numberDomain x

/-- Whether a value may be declared to be of a domain. -/
def admits : Domain → Scalar → Bool
  | .integer, .number x => x.isInteger
  | .real, .number _ | .string, .string _ | .boolean, .bool _ => true
  | _, _ => false

/-- A constant with the name of its type beside it, if it has one. -/
def constant (j : Json) (place : Place) (line : Option Int) : Result Expr := do
  let value ← field j place "value" constantValue
  let declared ← field j place "_valueType" (optional string)
  match value, declared with
  | none, _ => return .unsupported "Constant(None)" line
  | some v, none => return .constant ⟨inferredDomain v, v⟩ line
  | some v, some kind =>
    match Domain.ofKeyword? kind with
    | some d =>
      if admits d v then return .constant ⟨d, v⟩ line
      else return .unsupported ("Constant(" ++ kind ++ ")") line
    | none => return .unsupported ("Constant(" ++ kind ++ ")") line

/-- The index of a subscript: older trees wrap it in an `Index` node. -/
def unwrapIndex {j : Json} (slice : Part j) (place : Place) : Result (Part j × Place) := do
  let h ← settle place (header slice.1)
  if h.type = "Index" then
    let p ← required slice.1 place "value"
    return (⟨p.1, Nat.lt_trans p.2 slice.2⟩, place.key "value")
  else return (slice, place)

def keyword : Of String :=
  record fun ms => (·.getD "**") <$> member ms "arg" (nullable string)

/-- Whether every operator of a chain is known; else the first one that is not. -/
def compareOps (names : List String) : Except String (List CompareOp) :=
  names.mapM fun n => match CompareOp.ofName? n with
    | some op => .ok op
    | none => .error n

def readExpr (j : Json) (place : Place) : Result Expr := do
  let h ← settle place (header j)
  match h.type with
  | "Constant" | "NameConstant" => constant j place h.line
  | "Num" =>
    let x ← field j place "n" number
    return .constant ⟨numberDomain x, .number x⟩ h.line
  | "Str" =>
    let s ← field j place "s" string
    return .constant ⟨.string, .string s⟩ h.line
  | "Name" =>
    let id ← field j place "id" string
    return .name id (access (j.member? "ctx")) h.line
  | "Attribute" =>
    let value ← required j place "value"
    let attr ← field j place "attr" string
    return .member (← readExpr value.1 (place.key "value")) attr (access (j.member? "ctx")) h.line
  | "BinOp" =>
    let left ← required j place "left"
    let op ← field j place "op" header
    let right ← required j place "right"
    match BinaryOp.ofName? op.type with
    | none => return .unsupported ("BinOp(" ++ op.type ++ ")") h.line
    | some op =>
      let left ← readExpr left.1 (place.key "left")
      let right ← readExpr right.1 (place.key "right")
      return .binary op left right h.line
  | "UnaryOp" =>
    let op ← field j place "op" header
    let operand ← required j place "operand"
    match UnaryOp.ofName? op.type with
    | none => return .unsupported ("UnaryOp(" ++ op.type ++ ")") h.line
    | some op => return .unary op (← readExpr operand.1 (place.key "operand")) h.line
  | "BoolOp" =>
    let op ← field j place "op" header
    let values ← list j place "values"
    match BoolOp.ofName? op.type with
    | none => return .unsupported ("BoolOp(" ++ op.type ++ ")") h.line
    | some op =>
      return .boolean op (← each (place.key "values") values fun v p => readExpr v.1 p) h.line
  | "Compare" =>
    let left ← required j place "left"
    let ops ← field j place "ops" (Shape.list header)
    let comparators ← list j place "comparators"
    match compareOps (ops.map Header.type) with
    | .error n => return .unsupported ("Compare(" ++ n ++ ")") h.line
    | .ok ops =>
      let left ← readExpr left.1 (place.key "left")
      let comparators ← each (place.key "comparators") comparators fun v p => readExpr v.1 p
      return .compare left ops comparators h.line
  | "Call" =>
    let func ← required j place "func"
    let args ← list j place "args"
    let keywords ← field j place "keywords" (optional (Shape.list keyword))
    let func ← readExpr func.1 (place.key "func")
    let args ← each (place.key "args") args fun v p => readExpr v.1 p
    return .call func args (keywords.getD []) h.line
  | "Subscript" =>
    let value ← required j place "value"
    let slice ← required j place "slice"
    let value ← readExpr value.1 (place.key "value")
    let (index, indexPlace) ← unwrapIndex slice (place.key "slice")
    let index ← readExpr index.1 indexPlace
    return .subscript value index (access (j.member? "ctx")) h.line
  | "List" =>
    let elements ← list j place "elts"
    let elements ← each (place.key "elts") elements fun v p => readExpr v.1 p
    return .list elements (access (j.member? "ctx")) h.line
  | "Tuple" =>
    let elements ← list j place "elts"
    let elements ← each (place.key "elts") elements fun v p => readExpr v.1 p
    return .tuple elements (access (j.member? "ctx")) h.line
  | type => return .unsupported type h.line
termination_by sizeOf j
decreasing_by all_goals exact sizeOf_part_lt _

def readParameter (j : Json) (place : Place) : Result Parameter := do
  let h ← settle place (header j)
  let name ← field j place "arg" string
  match present? j "annotation" with
  | none => return ⟨name, none, h.line⟩
  | some a => return ⟨name, some (← readExpr a.1 (place.key "annotation")), h.line⟩

/-- The parameters of a function, if all of them are plain positional ones. -/
def plainParameters (j : Json) (place : Place) : Result (Option (List (Part j))) := do
  settle place (record (fun _ => .ok ()) (some j))
  let args ← list j place "args"
  let positionOnly ← field j place "posonlyargs" (optional count)
  let keywordOnly ← field j place "kwonlyargs" (optional count)
  let variadic := (present? j "vararg").isSome || (present? j "kwarg").isSome
  if variadic || 0 < positionOnly.getD 0 + keywordOnly.getD 0 then return none else return some args

def readStmt (j : Json) (place : Place) : Result Stmt := do
  let h ← settle place (header j)
  match h.type with
  | "FunctionDef" =>
    let name ← field j place "name" string
    let arguments ← required j place "args"
    let body ← list j place "body"
    match ← plainParameters arguments.1 (place.key "args") with
    | none => return .unsupported ("FunctionDef(" ++ name ++ ": non-positional parameters)") h.line
    | some parameters =>
      let parameters ← each ((place.key "args").key "args") parameters fun a p =>
        readParameter a.1 p
      let body ← each (place.key "body") body fun s p => readStmt s.1 p
      return .functionDef name parameters body h.line
  | "Assign" =>
    let targets ← list j place "targets"
    let value ← required j place "value"
    let targets ← each (place.key "targets") targets fun t p => readExpr t.1 p
    return .assign targets (← readExpr value.1 (place.key "value")) h.line
  | "AnnAssign" =>
    let target ← required j place "target"
    let typeExpr ← required j place "annotation"
    let target ← readExpr target.1 (place.key "target")
    let typeExpr ← readExpr typeExpr.1 (place.key "annotation")
    match present? j "value" with
    | none => return .annAssign target typeExpr none h.line
    | some value =>
      return .annAssign target typeExpr (some (← readExpr value.1 (place.key "value"))) h.line
  | "If" =>
    let test ← required j place "test"
    let body ← list j place "body"
    let orelse ← list j place "orelse"
    let test ← readExpr test.1 (place.key "test")
    let body ← each (place.key "body") body fun s p => readStmt s.1 p
    let orelse ← each (place.key "orelse") orelse fun s p => readStmt s.1 p
    return .branch test body orelse h.line
  | "For" =>
    let target ← required j place "target"
    let iter ← required j place "iter"
    let body ← list j place "body"
    let orelse ← list j place "orelse"
    let target ← readExpr target.1 (place.key "target")
    let iter ← readExpr iter.1 (place.key "iter")
    let body ← each (place.key "body") body fun s p => readStmt s.1 p
    let orelse ← each (place.key "orelse") orelse fun s p => readStmt s.1 p
    return .loop target iter body orelse h.line
  | "Expr" =>
    let value ← required j place "value"
    return .expr (← readExpr value.1 (place.key "value")) h.line
  | type => return .unsupported type h.line
termination_by sizeOf j
decreasing_by all_goals exact sizeOf_part_lt _

def readBlock (items : List Json) (place : Place) : Result (List Stmt) :=
  each place items readStmt

def readModule (j : Json) (place : Place) : Result Module := do
  let h ← settle place (header j)
  if h.type ≠ "Module" then throw ⟨place, .notModule h.type⟩
  let body ← list j place "body"
  return ⟨← each (place.key "body") body fun s p => readStmt s.1 p⟩

end Reading

/-- The module that a text denotes. Blanks around it do not count. -/
def Module.parse (text : String) : Except Malformed Module :=
  match Json.parse? (Text.trim text.toList) with
  | some j => Reading.readModule j .top
  | none => .error ⟨.top, .notData⟩

end ProgramGraph
