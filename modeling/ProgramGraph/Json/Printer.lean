import ProgramGraph.Json.Basic
import ProgramGraph.Text.Quoted

/-! Writing data trees, on one line or indented. -/
namespace ProgramGraph.Json

/-- Beyond the range of numbers nothing is written but `null`. -/
private def scalarText : Json → String
  | null => "null"
  | bool b => if b then "true" else "false"
  | number x => Notation.plain.write x
  | string s => Text.quote s
  | _ => "null"

mutual

/-- On one line, without blanks. -/
def compact : Json → String
  | array items => "[" ++ compactItems items ++ "]"
  | object members => "\x7b" ++ compactMembers members ++ "\x7d"
  | j => scalarText j

private def compactItems : List Json → String
  | [] => ""
  | [j] => compact j
  | j :: rest => compact j ++ "," ++ compactItems rest

private def compactMembers : List (String × Json) → String
  | [] => ""
  | [(k, j)] => Text.quote k ++ ":" ++ compact j
  | (k, j) :: rest => Text.quote k ++ ":" ++ compact j ++ "," ++ compactMembers rest

end

private def indentation (level : Nat) : String :=
  String.ofList (List.replicate (2 * level) ' ')

mutual

/-- One item or member a line, two blanks for each level; empty containers stay on one line. -/
def pretty (level : Nat) : Json → String
  | array [] => "[]"
  | array items => "[\n" ++ prettyItems (level + 1) items ++ "\n" ++ indentation level ++ "]"
  | object [] => "\x7b\x7d"
  | object members =>
    "\x7b\n" ++ prettyMembers (level + 1) members ++ "\n" ++ indentation level ++ "\x7d"
  | j => scalarText j

private def prettyItems (level : Nat) : List Json → String
  | [] => ""
  | [j] => indentation level ++ pretty level j
  | j :: rest => indentation level ++ pretty level j ++ ",\n" ++ prettyItems level rest

private def prettyMembers (level : Nat) : List (String × Json) → String
  | [] => ""
  | [(k, j)] => indentation level ++ Text.quote k ++ ": " ++ pretty level j
  | (k, j) :: rest =>
    indentation level ++ Text.quote k ++ ": " ++ pretty level j ++ ",\n" ++ prettyMembers level rest

end

end ProgramGraph.Json
