import ProgramGraph.Number.Notation
import ProgramGraph.Text.Quoted

/-! Literals of the four value domains and their written forms. -/
namespace ProgramGraph

/-- Value domains of variables and literals. -/
inductive Domain where
  | integer
  | real
  | string
  | boolean
deriving DecidableEq

namespace Domain

def all : List Domain := [integer, real, string, boolean]

def name : Domain → String
  | integer => "integer"
  | real => "real"
  | string => "string"
  | boolean => "boolean"

/-- The spelling of a domain in programs. -/
def keyword : Domain → String
  | integer => "int"
  | real => "float"
  | string => "str"
  | boolean => "bool"

def ofName? (s : String) : Option Domain := all.find? (·.name = s)

def ofKeyword? (s : String) : Option Domain := all.find? (·.keyword = s)

end Domain

inductive Scalar where
  | number (x : Binary64)
  | string (s : String)
  | bool (b : Bool)
deriving DecidableEq

namespace Scalar

/-- The bare form: numbers as in data, texts without quotes. -/
def text : Scalar → String
  | number x => Notation.plain.write x
  | string s => s
  | bool b => if b then "true" else "false"

/-- The form in data: texts are quoted. -/
def dataText : Scalar → String
  | string s => Text.quote s
  | v => v.text

/-- Zero, the empty text and falsehood are false, all else is true. -/
def truth : Scalar → Bool
  | number x => x.value != 0
  | string s => s != ""
  | bool b => b

/-- Only the truth value itself is written as true. -/
private def truthText (v : Scalar) : String :=
  if v = bool true then "True" else "False"

private def realText : Scalar → String
  | number x => Notation.real.write x
  | v => v.text

end Scalar

/-- A value under a domain. They may disagree; then no arithmetic applies. -/
structure Literal where
  domain : Domain
  value : Scalar
deriving DecidableEq

namespace Literal

/-- The spelling of the literal in programs. -/
def source (l : Literal) : String :=
  match l.domain with
  | .boolean => l.value.truthText
  | .string => Text.quote l.value.text
  | .integer => l.value.text
  | .real => l.value.realText

/-- The literal as it is printed: texts without quotes, reals with a fractional part. -/
def text (l : Literal) : String :=
  match l.domain with
  | .boolean => l.value.truthText
  | .string => l.value.text
  | .integer => l.value.text
  | .real => l.value.realText

/-- The number of a literal under a domain of numbers. -/
def number? (l : Literal) : Option Binary64 :=
  match l.domain, l.value with
  | .integer, .number x | .real, .number x => some x
  | _, _ => none

end Literal
end ProgramGraph
