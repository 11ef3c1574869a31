import ProgramGraph.Graph.Basic
import ProgramGraph.Shape.Checked

/-! The shape of documents as data trees. -/
namespace ProgramGraph

open Shape

def Domain.schema : Of Domain :=
  choice (Domain.all.map fun d => (d.name, d))

def Reference.schema : Of Reference :=
  object ["variable", "index"] fun ms =>
    Reference.mk <$> member ms "variable" filled <*> member ms "index" int

namespace Graph

/-- The output of what produces no value. -/
def noOutput : Of Unit := object [] fun _ => .ok ()

def Source.schema : Of Source :=
  object ["name", "type"] fun ms =>
    (fun n (make : String → Source) => make n) <$> member ms "name" filled <*>
      member ms "type" (choice [("variable", Source.var), ("function", Source.function)])

def Payload.schema : Of Payload :=
  tagged [
    ("lambda", object ["type", "name", "reference"] fun ms =>
      Payload.lambda <$> member ms "name" filled <*> member ms "reference" (nullable int)),
    ("literal", object ["type", "dtype", "value"] fun ms =>
      Payload.literal <$> member ms "dtype" Domain.schema <*> member ms "value" string)]

def Input.schema : Of Input :=
  alternatives [
    fun j => Input.ref <$> Reference.schema j,
    object ["name", "type"] fun ms =>
      (fun n _ => Input.function n) <$> member ms "name" filled <*>
        member ms "type" (constant "function")]

def Record.schema : Of Record :=
  alternatives [
    object ["name", "output", "input"] fun ms =>
      Record.value <$> member ms "name" filled <*> member ms "output" Reference.schema <*>
        member ms "input" (list Input.schema),
    object ["function", "output", "input"] fun ms =>
      (fun f _ input => Record.call f input) <$> member ms "function" filled <*>
        member ms "output" noOutput <*> member ms "input" (list Reference.schema),
    object ["name", "inputs", "output"] fun ms =>
      (fun n inputs _ => Record.loop n inputs) <$> member ms "name" filled <*>
        member ms "inputs" (list filled) <*> member ms "output" noOutput]

def Declaration.schema : Of Declaration :=
  object ["name", "domain"] fun ms =>
    Declaration.mk <$> member ms "name" filled <*> member ms "domain" Domain.schema

def RangeBound.schema : Of RangeBound :=
  alternatives [
    fun j => RangeBound.literal <$> int j,
    fun j => RangeBound.ref <$> Reference.schema j]

def Range.schema : Of Range :=
  object ["start", "end"] fun ms =>
    Range.mk <$> member ms "start" RangeBound.schema <*> member ms "end" RangeBound.schema

def Function.schema : Of Function :=
  tagged [
    ("assign", object ["name", "type", "target", "sources", "body"] fun ms =>
      Function.assign <$> member ms "name" filled <*> member ms "target" filled <*>
        member ms "sources" (list Source.schema) <*> member ms "body" (single Payload.schema)),
    ("decision", object ["name", "type", "target", "sources"] fun ms =>
      Function.decision <$> member ms "name" filled <*> member ms "target" filled <*>
        member ms "sources" (list Source.schema)),
    ("container", object ["name", "type", "input", "variables", "body"] fun ms =>
      Function.container <$> member ms "name" filled <*>
        member ms "input" (list Declaration.schema) <*>
        member ms "variables" (list Declaration.schema) <*>
        member ms "body" (list Record.schema)),
    ("loop_plate",
      object ["name", "type", "input", "index_variable", "index_iteration_range", "body"] fun ms =>
        Function.loopPlate <$> member ms "name" filled <*> member ms "input" (list filled) <*>
          member ms "index_variable" filled <*> member ms "index_iteration_range" Range.schema <*>
          member ms "body" (list Record.schema))]

private def datePattern : String := "/^\\d\x7b4\x7d-\\d\x7b2\x7d-\\d\x7b2\x7d$/"

/-- Four, two and two decimal digits, joined by hyphens. -/
def isDate (s : String) : Bool :=
  match s.toList with
  | [a, b, c, d, '-', e, f, '-', g, h] => [a, b, c, d, e, f, g, h].all Char.isDigit
  | _ => false

def date : Of String := fun j =>
  match string j with
  | .ok s => if isDate s then .ok s else .violation (.pattern datePattern)
  | c => c

def Document.schema : Of Document :=
  object ["start", "name", "dateCreated", "functions", "body"] fun ms =>
    Document.mk <$> member ms "start" string <*> member ms "name" filled <*>
      member ms "dateCreated" date <*> member ms "functions" (list Function.schema) <*>
      member ms "body" (list Record.schema)

end Graph
end ProgramGraph
