import ProgramGraph.Graph.Basic
import ProgramGraph.Json.Basic

/-! Documents as data trees. -/
namespace ProgramGraph

def Reference.toJson (r : Reference) : Json :=
  .object [("variable", .string r.name), ("index", .ofInt r.index)]

namespace Graph

open Json

def strings (l : List String) : Json := .array (l.map .string)

def Source.toJson : Source → Json
  | .var name => .object [("name", .string name), ("type", .string "variable")]
  | .function name => .object [("name", .string name), ("type", .string "function")]

def Input.toJson : Input → Json
  | .ref r => r.toJson
  | .function name => .object [("name", .string name), ("type", .string "function")]

def Payload.toJson : Payload → Json
  | .lambda name line => .object [("type", .string "lambda"), ("name", .string name),
      ("reference", (line.map Json.ofInt).getD .null)]
  | .literal domain text => .object [("type", .string "literal"), ("dtype", .string domain.name),
      ("value", .string text)]

def Record.toJson : Record → Json
  | .value name output input => .object [("name", .string name), ("output", output.toJson),
      ("input", .array (input.map Input.toJson))]
  | .call function input => .object [("function", .string function), ("output", .object []),
      ("input", .array (input.map Reference.toJson))]
  | .loop name inputs => .object [("name", .string name), ("inputs", strings inputs),
      ("output", .object [])]

def Declaration.toJson (d : Declaration) : Json :=
  .object [("name", .string d.name), ("domain", .string d.domain.name)]

def RangeBound.toJson : RangeBound → Json
  | .literal n => .ofInt n
  | .ref r => r.toJson

def Range.toJson (r : Range) : Json :=
  .object [("start", r.start.toJson), ("end", r.stop.toJson)]

def Function.toJson (f : Function) : Json :=
  let head := [("name", Json.string f.name), ("type", .string f.kind)]
  match f with
  | .assign _ target sources payload =>
    .object (head ++ [("target", .string target), ("sources", .array (sources.map Source.toJson)),
      ("body", .array [payload.toJson])])
  | .decision _ target sources =>
    .object (head ++ [("target", .string target), ("sources", .array (sources.map Source.toJson))])
  | .container _ input vars body =>
    .object (head ++ [("input", .array (input.map Declaration.toJson)),
      ("variables", .array (vars.map Declaration.toJson)),
      ("body", .array (body.map Record.toJson))])
  | .loopPlate _ input index range body =>
    .object (head ++ [("input", strings input), ("index_variable", .string index),
      ("index_iteration_range", range.toJson), ("body", .array (body.map Record.toJson))])

def Document.toJson (d : Document) : Json :=
  .object [("start", .string d.start), ("name", .string d.name),
    ("dateCreated", .string d.dateCreated), ("functions", .array (d.functions.map Function.toJson)),
    ("body", .array (d.body.map Record.toJson))]

end Graph
end ProgramGraph
