import ProgramGraph.Number.Numeral
import ProgramGraph.Shape.Violation
import ProgramGraph.Text.Blank

/-! Lengths: those of texts and lists, and those that objects name in a member `length`. -/
namespace ProgramGraph.Shape

private def digit? (c : Char) : Option Nat :=
  if c.isDigit then some (c.toNat - '0'.toNat)
  else if 'a' ≤ c.toLower ∧ c.toLower ≤ 'z' then some (c.toLower.toNat - 'a'.toNat + 10)
  else none

/-- The value of at least one digit in a base up to 36. -/
private def inBase? (base : Nat) (ds : List Char) : Option Rat := do
  guard (!ds.isEmpty)
  let n ← ds.foldlM (fun n c => do
    let d ← digit? c
    guard (d < base)
    return base * n + d) 0
  return (n : Rat)

/-- Whatever lies beyond the greatest number stands at the supremum. -/
private def beyond (negative : Bool) : Rat :=
  if negative then -supremum else supremum

/-- The number that a text denotes. Blanks around it do not count, and without more it is zero. -/
def textAmount? (s : String) : Option Rat :=
  match Text.trim s.toList with
  | [] => some 0
  | '0' :: 'x' :: ds | '0' :: 'X' :: ds => inBase? 16 ds
  | '0' :: 'o' :: ds | '0' :: 'O' :: ds => inBase? 8 ds
  | '0' :: 'b' :: ds | '0' :: 'B' :: ds => inBase? 2 ds
  | cs =>
    match String.ofList cs with
    | "Infinity" | "+Infinity" => some (beyond false)
    | "-Infinity" => some (beyond true)
    | _ => (Numeral.read? cs).map fun n => (n.value?.map (·.value)).getD (beyond n.negative)

/-- The number that a tree stands for where one is wanted. A list stands for the text of its items,
and of two or more that text has commas. -/
def amount? : Json → Option Rat
  | .null => some 0
  | .bool b => some (if b then 1 else 0)
  | .number x => some x.value
  | .overflow negative => some (beyond negative)
  | .string s => textAmount? s
  | .array [] => some 0
  | .array [.bool _] => none
  | .array [j] => amount? j
  | .array _ => none
  | .object _ => none

/-- What is measured, and the length it has. -/
def length? : Option Json → Option (Measured × Json)
  | some (.string s) => some (.text, .ofInt s.length)
  | some (.array items) => some (.list, .ofInt items.length)
  | some (.object members) => (members.lookup "length").map (.object, ·)
  | _ => none

/-- Whether a length is the number one, and not merely stands for it. -/
def isOne : Json → Bool
  | .number x => x.value = 1
  | _ => false

end ProgramGraph.Shape
