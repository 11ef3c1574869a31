import ProgramGraph.Lowering.Assignment
import ProgramGraph.Lowering.Program

/-! The names that programs use, and how. -/
namespace ProgramGraph

/-- The name of a condition. -/
def conditionName (n : Nat) : String := "IF_" ++ toString n

/-- `IF_` and at least one digit. -/
def isConditionName (x : String) : Bool :=
  match x.toList with
  | 'I' :: 'F' :: '_' :: ds => !ds.isEmpty && ds.all Char.isDigit
  | _ => false

def conditionNumber (x : String) : Nat := Nat.ofDigitChars 10 (x.toList.drop 3) 0

private theorem toList_conditionName (n : Nat) :
    (conditionName n).toList = 'I' :: 'F' :: '_' :: Nat.toDigits 10 n := by
  unfold conditionName
  rw [String.toList_append, Nat.toString_eq_ofList_toDigits, String.toList_ofList, String.toList_ofList]
  rfl

@[simp] theorem isConditionName_conditionName (n : Nat) : isConditionName (conditionName n) := by
  unfold isConditionName
  rw [toList_conditionName]
  have hd : (Nat.toDigits 10 n).all Char.isDigit = true :=
    List.all_eq_true.mpr fun c hc => Nat.isDigit_of_mem_toDigits (by decide) (by decide) hc
  simp [hd]

@[simp] theorem conditionNumber_conditionName (n : Nat) :
    conditionNumber (conditionName n) = n := by
  unfold conditionNumber
  rw [toList_conditionName]
  exact Nat.ofDigitChars_ten_toDigits

mutual

/-- Variables in value position with the access that their node shows. The array of a subscript is
read whatever its node shows. -/
def Expr.uses (e : Expr) : List (String × Access) :=
  match e with
  | .constant .. | .member .. | .unsupported .. => []
  | .name id access _ => [(id, access)]
  | .binary _ left right _ => left.uses ++ right.uses
  | .unary _ operand _ => operand.uses
  | .boolean _ values _ => usesOfEach values
  | .compare left _ comparators _ => left.uses ++ usesOfEach comparators
  | .call _ args _ _ => usesOfEach args
  | .subscript (.name id _ _) _ _ _ => [(id, .load)]
  | .subscript .. => []
  | .list elements _ _ | .tuple elements _ _ => usesOfEach elements

def Expr.usesOfEach (es : List Expr) : List (String × Access) :=
  match es with
  | [] => []
  | e :: rest => e.uses ++ usesOfEach rest

end

/-- The variable that an assignment to the target gives a new version. -/
def Expr.targetName? : Expr → Option String
  | .name id _ _ | .subscript (.name id _ _) _ _ _ => some id
  | _ => none

theorem Expr.targetNames_cons (e : Expr) (rest : List Expr) :
    (e :: rest).filterMap targetName? = e.targetName?.toList ++ rest.filterMap targetName? := by
  rw [List.filterMap_cons]
  cases e.targetName? <;> rfl

mutual

/-- Variables in value position, at any depth. -/
def Stmt.uses (s : Stmt) : List (String × Access) :=
  match s with
  | .functionDef _ _ body _ => usesOf body
  | .assign _ value _ => value.uses
  | .annAssign _ _ value _ => Expr.usesOfEach (Lowering.initialValue? value).toList
  | .branch test body orelse _ => test.uses ++ usesOf body ++ usesOf orelse
  | .loop _ iter body _ _ => iter.uses ++ usesOf body
  | .expr value _ => value.uses
  | .unsupported .. => []

def Stmt.usesOf (block : List Stmt) : List (String × Access) :=
  match block with
  | [] => []
  | s :: rest => s.uses ++ usesOf rest

end

mutual

/-- Parameters, loop indices and variables that are assigned or declared, at any depth. -/
def Stmt.defined (s : Stmt) : List String :=
  match s with
  | .functionDef _ parameters body _ => parameters.map Parameter.name ++ definedIn body
  | .assign targets _ _ => targets.filterMap Expr.targetName?
  | .annAssign target _ _ _ => target.targetName?.toList
  | .branch _ body orelse _ => definedIn body ++ definedIn orelse
  | .loop target _ body _ _ => target.targetName?.toList ++ definedIn body
  | .expr .. | .unsupported .. => []

def Stmt.definedIn (block : List Stmt) : List String :=
  match block with
  | [] => []
  | s :: rest => s.defined ++ definedIn rest

end

mutual

/-- A statement and the statements in it, at any depth. -/
def Stmt.nested (s : Stmt) : List Stmt :=
  s :: match s with
    | .functionDef _ _ body _ => nestedIn body
    | .branch _ body orelse _ | .loop _ _ body orelse _ => nestedIn body ++ nestedIn orelse
    | .assign .. | .annAssign .. | .expr .. | .unsupported .. => []

def Stmt.nestedIn (block : List Stmt) : List Stmt :=
  match block with
  | [] => []
  | s :: rest => s.nested ++ nestedIn rest

end

/-- Names in value position are read. -/
def Stmt.OnlyLoads (block : List Stmt) : Prop :=
  ∀ u ∈ Stmt.usesOf block, u.2 = .load

/-- No variable has the name of a condition. -/
def Stmt.SparesConditions (block : List Stmt) : Prop :=
  (∀ u ∈ Stmt.usesOf block, isConditionName u.1 = false) ∧
    ∀ x ∈ Stmt.definedIn block, isConditionName x = false

instance (block : List Stmt) : Decidable (Stmt.OnlyLoads block) := by
  unfold Stmt.OnlyLoads; infer_instance

instance (block : List Stmt) : Decidable (Stmt.SparesConditions block) := by
  unfold Stmt.SparesConditions; infer_instance

def Stmt.isDefinition : Stmt → Bool
  | .functionDef .. => true
  | _ => false

/-- The function definitions at top level, the only statements that are lowered there. -/
def Module.definitions (ms : List Module) : List Stmt :=
  (Module.topLevel ms).filter Stmt.isDefinition

end ProgramGraph
