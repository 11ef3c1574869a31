import ProgramGraph.Json.Basic

/-! Ways in which a data tree misses the shape expected of it. -/
namespace ProgramGraph.Shape

/-- A step from a tree to a part of it. -/
inductive Segment where
  | key (k : String)
  | index (i : Nat)
deriving DecidableEq

def Segment.text : Segment → String
  | key k => k
  | index i => toString i

def joinSegments (path : List Segment) : String :=
  ".".intercalate (path.map Segment.text)

inductive Expected where
  | string
  | number
  | boolean
  | array
  | object
  | int
  /-- Anything, as long as the member is there. -/
  | something
deriving DecidableEq

def Expected.text : Expected → String
  | string => "string"
  | number => "number"
  | boolean => "boolean"
  | array => "array"
  | object => "object"
  | int => "int"
  | something => "nonoptional"

/-- What has a length: a text its characters, a list its items, an object what it says. -/
inductive Measured where
  | text
  | list
  | object
deriving DecidableEq

def Measured.kind : Measured → String
  | text => "string"
  | list => "array"
  | object => "unknown"

/-- A bound in the words of what is measured. -/
def Measured.bound (m : Measured) (limit : String) : String :=
  match m with
  | text => "to have " ++ limit ++ " characters"
  | list => "to have " ++ limit ++ " items"
  | object => "to be " ++ limit

inductive Violation where
  | type (expected : Expected) (received : String)
  | constant (wanted : String)
  | choice (options : List String)
  | tag (options : List String)
  /-- No alternative fits. -/
  | alternatives
  | beyondSafe (negative : Bool)
  | tooShort (measured : Measured) (least : Nat)
  | wrongLength (measured : Measured) (tooLong : Bool) (length : Nat)
  | pattern (expression : String)
  | unrecognized (keys : List String)
  /-- A length in the words of its owner. -/
  | empty (message : String)
  /-- A relation between members in the words of its owner. -/
  | relation (message : String)
deriving DecidableEq

namespace Violation

private def quoted (s : String) : String := "\"" ++ s ++ "\""

def message : Violation → String
  | type expected received =>
    "Invalid input: expected " ++ expected.text ++ ", received " ++ received
  | constant wanted => "Invalid input: expected " ++ quoted wanted
  | choice options => "Invalid option: expected one of " ++ "|".intercalate (options.map quoted)
  | tag options =>
    "Invalid discriminator value. Expected " ++
      " | ".intercalate (options.map fun o => "'" ++ o ++ "'")
  | alternatives => "Invalid input"
  | beyondSafe negative =>
    if negative then "Too small: expected int to be >=" ++ toString (-Binary64.greatestSafe)
    else "Too big: expected int to be <=" ++ toString Binary64.greatestSafe
  | tooShort measured least =>
    "Too small: expected " ++ measured.kind ++ " " ++ measured.bound (">=" ++ toString least)
  | wrongLength measured tooLong length =>
    (if tooLong then "Too big" else "Too small") ++ ": expected " ++ measured.kind ++ " " ++
      measured.bound ("exactly " ++ toString length)
  | pattern expression => "Invalid string: must match pattern " ++ expression
  | unrecognized [k] => "Unrecognized key: " ++ quoted k
  | unrecognized keys => "Unrecognized keys: " ++ ", ".intercalate (keys.map quoted)
  | empty message => message
  | relation message => message

/-- A soft violation leaves a value of the expected type. -/
def isSoft : Violation → Bool
  | beyondSafe _ | tooShort _ _ | wrongLength _ _ _ | pattern _ | unrecognized _ | empty _ => true
  | _ => false

end Violation

/-- A violation and its place. -/
structure Issue where
  path : List Segment
  violation : Violation
deriving DecidableEq

def Issue.under (s : Segment) (i : Issue) : Issue := { i with path := s :: i.path }

/-- The name of the type of a tree, or of nothing. -/
def typeName : Option Json → String
  | none => "undefined"
  | some .null => "null"
  | some (.bool _) => "boolean"
  | some (.number _) => "number"
  | some (.overflow negative) => if negative then "-Infinity" else "Infinity"
  | some (.string _) => "string"
  | some (.array _) => "array"
  | some (.object _) => "object"

end ProgramGraph.Shape
