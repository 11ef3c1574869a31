/-! Diagnostics: a code, a message and a place. -/
namespace ProgramGraph

inductive Code where
  | unsupportedConstruct
  | unsupportedType
  | unsupportedRange
  | multipleLoopIndices
  | arrayIndexing
  | invalidTree
  | bridge
  | validation
deriving DecidableEq

def Code.name : Code → String
  | unsupportedConstruct => "UnsupportedConstruct"
  | unsupportedType => "UnsupportedType"
  | unsupportedRange => "UnsupportedRange"
  | multipleLoopIndices => "MultipleLoopIndices"
  | arrayIndexing => "ArrayIndexingUnsupported"
  | invalidTree => "InvalidSyntaxTree"
  | bridge => "BridgeError"
  | validation => "ValidationError"

structure Diagnostic where
  code : Code
  message : String
  /-- The syntactic construct at fault. -/
  construct : Option String := none
  line : Option Int := none
  /-- A place within a data tree. -/
  path : Option String := none
deriving DecidableEq

/-- A fault of a document or of options at a place within it. -/
structure Problem where
  path : String
  message : String
  /-- The offending name, where there is one. -/
  value : Option String := none
deriving DecidableEq

namespace Diagnostic

/-- One line of text, such as `UnsupportedConstruct (line 4): No handler for While`. -/
def describe (d : Diagnostic) : String :=
  let place := match d.line with
    | some n => " (line " ++ toString n ++ ")"
    | none => ""
  d.code.name ++ place ++ ": " ++ d.message

def unsupportedConstruct (construct : String) (line : Option Int) (detail : Option String) :
    Diagnostic where
  code := .unsupportedConstruct
  message := detail.getD ("No handler for " ++ construct)
  construct := construct
  line := line

def unsupportedType (message : String) (line : Option Int) : Diagnostic where
  code := .unsupportedType
  message := message
  construct := "annotation"
  line := line

def unsupportedRange (message : String) (line : Option Int) : Diagnostic where
  code := .unsupportedRange
  message := message
  construct := "For"
  line := line

def multipleLoopIndices (line : Option Int) : Diagnostic where
  code := .multipleLoopIndices
  message := "Only one index variable is supported"
  construct := "For"
  line := line

def arrayIndexing (array : String) (line : Option Int) : Diagnostic where
  code := .arrayIndexing
  message := "Only constant numeric indices are supported (subscript of " ++ array ++ ")"
  construct := "Subscript"
  line := line

def invalidTree (path message : String) : Diagnostic where
  code := .invalidTree
  message := "Invalid syntax tree at " ++ path ++ ": " ++ message
  path := path

def bridge (message : String) : Diagnostic where
  code := .bridge
  message := message

/-- The first problem stands for all; the others are counted. -/
def validation (problems : List Problem) : Diagnostic where
  code := .validation
  message :=
    let summary := match problems with
      | p :: _ => p.path ++ ": " ++ p.message
      | [] => "unknown error"
    let more := if 1 < problems.length
      then " (+" ++ toString (problems.length - 1) ++ " more)" else ""
    "Invalid PGM document at " ++ summary ++ more

end Diagnostic
end ProgramGraph
