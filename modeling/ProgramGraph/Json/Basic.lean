import ProgramGraph.Number.Notation
import ProgramGraph.Table

/-! Data trees with ordered members. -/
namespace ProgramGraph

/-- A data tree. A numeral beyond the greatest number is kept apart from the numbers. -/
inductive Json where
  | null
  | bool (b : Bool)
  | number (x : Binary64)
  | overflow (negative : Bool)
  | string (s : String)
  | array (items : List Json)
  | object (members : List (String × Json))

namespace Json

instance : Inhabited Json := ⟨null⟩

/-- An integer as the number nearest to it. -/
def ofInt (n : Int) : Json :=
  match Binary64.ofInt? n with
  | some x => number x
  | none => overflow (n < 0)

/-- The member of an object with a given key. -/
def member? (j : Json) (key : String) : Option Json :=
  match j with
  | object members => members.lookup key
  | _ => none

/-- Keys that count positions: decimals below `2 ^ 32 - 1` without leading zeros. -/
def position? (key : String) : Option Nat :=
  let cs := key.toList
  if cs.isEmpty || !cs.all Char.isDigit || cs.length > 10 || (cs.length > 1 && cs.head? = some '0')
  then none
  else
    let n := Decimal.natOfDigits cs
    if n < 4294967295 then some n else none

private def insertByPosition (e : Nat × String × Json) :
    List (Nat × String × Json) → List (Nat × String × Json)
  | [] => [e]
  | e' :: rest => if e.1 < e'.1 then e :: e' :: rest else e' :: insertByPosition e rest

/-- An object from its members as written: positions come first, in ascending order, then the
other keys; a repeated key keeps its place and takes the last value. -/
def ofMembers (written : List (String × Json)) : Json :=
  let members := (Table.ofList written).toList
  let positions := members.filterMap fun e => (position? e.1).map (·, e)
  let others := members.filter fun e => (position? e.1).isNone
  object ((positions.foldl (fun es e => insertByPosition e es) []).map Prod.snd ++ others)

end Json
end ProgramGraph
