import ProgramGraph.Literal.Basic

/-! Program graphs: functions linked by versioned variables. -/
namespace ProgramGraph

/-- A version of a variable. -/
structure Reference where
  name : String
  index : Int
deriving DecidableEq

namespace Graph

/-- What a function is computed from. -/
inductive Source where
  | var (name : String)
  | function (name : String)
deriving DecidableEq

/-- What a record is computed from. -/
inductive Input where
  | ref (reference : Reference)
  | function (name : String)
deriving DecidableEq

/-- How the value of an assignment is given. -/
inductive Payload where
  | lambda (name : String) (line : Option Int)
  | literal (domain : Domain) (text : String)
deriving DecidableEq

/-- A body links functions to the versions that they read and write. -/
inductive Record where
  | value (name : String) (output : Reference) (input : List Input)
  /-- A call for its effect. -/
  | call (function : String) (input : List Reference)
  | loop (name : String) (inputs : List String)
deriving DecidableEq

structure Declaration where
  name : String
  domain : Domain
deriving DecidableEq

inductive RangeBound where
  | literal (n : Int)
  | ref (reference : Reference)
deriving DecidableEq

structure Range where
  start : RangeBound
  stop : RangeBound
deriving DecidableEq

inductive Function where
  | assign (name target : String) (sources : List Source) (payload : Payload)
  /-- A choice between two versions. -/
  | decision (name target : String) (sources : List Source)
  | container (name : String) (input vars : List Declaration) (body : List Record)
  | loopPlate (name : String) (input : List String) (index : String) (range : Range)
      (body : List Record)
deriving DecidableEq

namespace Function

def name : Function → String
  | assign name .. | decision name .. | container name .. | loopPlate name .. => name

def kind : Function → String
  | assign .. => "assign"
  | decision .. => "decision"
  | container .. => "container"
  | loopPlate .. => "loop_plate"

/-- The records of a container or a loop plate. -/
def body : Function → List Record
  | container _ _ _ body | loopPlate _ _ _ _ body => body
  | _ => []

/-- The variable that an assignment or a decision computes. -/
def target? : Function → Option String
  | assign _ target _ _ | decision _ target _ => some target
  | _ => none

end Function

structure Document where
  /-- The entry call, or nothing. -/
  start : String
  name : String
  dateCreated : String
  functions : List Function
  body : List Record
deriving DecidableEq

end Graph
end ProgramGraph
