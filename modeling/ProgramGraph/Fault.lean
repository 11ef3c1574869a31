import ProgramGraph.Diagnostic

/-! Why a program lies outside the supported subset. -/
namespace ProgramGraph

/-- An end of a range. -/
inductive Bound where
  | start
  | stop
deriving DecidableEq

def Bound.text : Bound → String
  | start => "start"
  | stop => "end"

inductive Refusal where
  | unhandled (construct : String)
  | subscriptWrite
  | destructuring (construct : String)
  | attributeRead
  | callee
  | keywordArguments (names : List String)
  | subscriptOfExpression
  | arrayIndex (array : String)
  | assignmentTarget
  | missingOperand
  | untyped (subject : String)
  | unknownType (subject : String)
  | undeclared (name scope : String)
  | annotatedTarget
  | loopElse
  | loopIndices
  | loopIndex
  | iteration
  | rangeArity
  | rangeBound (bound : Bound)
  | rangeInteger (bound : Bound)
  | effectlessExpression
  | argumentInputs
  | nestedCall
  | duplicateFunction (name : String)
deriving DecidableEq

/-- A refusal and the line of the construct at fault. -/
structure Fault where
  cause : Refusal
  line : Option Int
deriving DecidableEq

def Refusal.diagnostic (cause : Refusal) (line : Option Int) : Diagnostic :=
  let construct (name detail : String) := Diagnostic.unsupportedConstruct name line (some detail)
  match cause with
  | unhandled name => .unsupportedConstruct name line none
  | subscriptWrite => construct "Subscript" "Subscript write in expression position"
  | destructuring name => construct name "Destructuring targets are not supported"
  | attributeRead => construct "Attribute" "Attribute access is only supported as a call target"
  | callee => construct "Call" "Unsupported callee expression"
  | keywordArguments names =>
    construct "Call" ("Keyword arguments are not supported (" ++ ", ".intercalate names ++ ")")
  | subscriptOfExpression =>
    construct "Subscript" "Only subscripts of plain variables are supported"
  | arrayIndex array => .arrayIndexing array line
  | assignmentTarget => construct "Assign" "Unsupported assignment target"
  | missingOperand => construct "Compare" "Comparison is missing an operand"
  | untyped subject =>
    .unsupportedType ("Missing type annotation for '" ++ subject ++ "'") line
  | unknownType subject =>
    .unsupportedType ("Unsupported type annotation for '" ++ subject ++ "'") line
  | undeclared name scope =>
    .unsupportedType ("No declared type for variable '" ++ name ++ "' in '" ++ scope ++ "'") line
  | annotatedTarget => construct "AnnAssign" "Annotated targets must be plain variables"
  | loopElse => construct "For" "For/else is not supported"
  | loopIndices => .multipleLoopIndices line
  | loopIndex => construct "For" "Loop index must be a plain variable"
  | iteration => construct "For" "Can only iterate over a range"
  | rangeArity => .unsupportedRange "Range must have exactly a start and an end" line
  | rangeBound bound =>
    .unsupportedRange ("Range " ++ bound.text ++ " must be a single literal or variable") line
  | rangeInteger bound => .unsupportedRange ("Range " ++ bound.text ++ " must be an integer") line
  | effectlessExpression => construct "Expr" "Only call expressions are supported as statements"
  | argumentInputs => construct "Call" "Only 1 input per argument is supported in call statements"
  | nestedCall => construct "Call" "Nested calls are not supported in call statements"
  | duplicateFunction name => construct "FunctionDef" ("Duplicate function '" ++ name ++ "'")

def Fault.diagnostic (f : Fault) : Diagnostic := f.cause.diagnostic f.line

end ProgramGraph
