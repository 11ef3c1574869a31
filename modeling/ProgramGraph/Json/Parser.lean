import ProgramGraph.Json.Basic
import ProgramGraph.Number.Numeral
import ProgramGraph.Text.Units

/-! Reading data trees from text: characters are folded into tokens, tokens into a tree. Strings in
which an escape gives a surrogate without its partner are left out: see `Text.ofUnits`. -/
namespace ProgramGraph.Json

inductive Token where
  | openArray
  | closeArray
  | openObject
  | closeObject
  | comma
  | colon
  | text (s : String)
  /-- A number, a truth value or null. -/
  | scalar (j : Json)

/-- A numeral without a plus or leading zeros, whose point has digits on both sides. -/
def numeral? (cs : List Char) : Option Numeral := do
  let unsigned := match cs with
    | '-' :: rest => rest
    | _ => cs
  let (whole, rest) := unsigned.span Char.isDigit
  guard (!whole.isEmpty && (whole.length == 1 || whole.head? != some '0'))
  if rest.head? = some '.' then guard (rest.tail.head?.any Char.isDigit)
  Numeral.read? cs

/-- The place of a scanner: between tokens or within one, whose parts are kept in reverse. -/
private inductive Scan where
  | between
  | text (units : List Nat)
  | escape (units : List Nat)
  /-- Within a code unit in hexadecimal, with the number of digits still to come. -/
  | unit (units : List Nat) (left n : Nat)
  | numeral (cs : List Char)
  | word (cs : List Char)

private def word? (cs : List Char) : Option Json :=
  match String.ofList cs with
  | "null" => some .null
  | "true" => some (.bool true)
  | "false" => some (.bool false)
  | _ => none

private def ofNumeral (n : Numeral) : Json :=
  match n.value? with
  | some x => .number x
  | none => .overflow n.negative

/-- The token that ends where the scanner stands, if it stands within one that can end there. -/
private def Scan.close? : Scan → Option (List Token)
  | .between => some []
  | .numeral cs => do return [.scalar (ofNumeral (← numeral? cs.reverse))]
  | .word cs => do return [.scalar (← word? cs.reverse)]
  | _ => none

private def hexValue? (c : Char) : Option Nat :=
  if '0' ≤ c ∧ c ≤ '9' then some (c.toNat - '0'.toNat)
  else if 'a' ≤ c ∧ c ≤ 'f' then some (c.toNat - 'a'.toNat + 10)
  else if 'A' ≤ c ∧ c ≤ 'F' then some (c.toNat - 'A'.toNat + 10)
  else none

private def escaped? (c : Char) : Option Nat :=
  match c with
  | '"' | '\\' | '/' => some c.toNat
  | 'b' => some 8
  | 'f' => some 12
  | 'n' => some 10
  | 'r' => some 13
  | 't' => some 9
  | _ => none

/-- A character that stands between tokens. -/
private def start (done : List Token) (c : Char) : Option (List Token × Scan) :=
  match c with
  | ' ' | '\t' | '\n' | '\r' => some (done, .between)
  | '[' => some (.openArray :: done, .between)
  | ']' => some (.closeArray :: done, .between)
  | '\x7b' => some (.openObject :: done, .between)
  | '\x7d' => some (.closeObject :: done, .between)
  | ',' => some (.comma :: done, .between)
  | ':' => some (.colon :: done, .between)
  | '"' => some (done, .text [])
  | _ =>
    if c == '-' || c.isDigit then some (done, .numeral [c])
    else if c.isLower then some (done, .word [c])
    else none

private def step : List Token × Scan → Char → Option (List Token × Scan)
  | (done, .between), c => start done c
  | (done, .text units), c =>
    if c = '"' then some (.text (String.ofList (Text.ofUnits units.reverse)) :: done, .between)
    else if c = '\\' then some (done, .escape units)
    else if c.toNat < 32 then none
    else some (done, .text ((Text.unitsOf c).reverse ++ units))
  | (done, .escape units), c =>
    if c = 'u' then some (done, .unit units 4 0)
    else (escaped? c).map fun n => (done, .text (n :: units))
  | (done, .unit units left n), c => do
    let n := n * 16 + (← hexValue? c)
    return (done, if left ≤ 1 then .text (n :: units) else .unit units (left - 1) n)
  | (done, .numeral cs), c =>
    if c.isDigit || c == '-' || c == '+' || c == '.' || c == 'e' || c == 'E' then
      some (done, .numeral (c :: cs))
    else do start ((← (Scan.numeral cs).close?) ++ done) c
  | (done, .word cs), c =>
    if c.isLower then some (done, .word (c :: cs))
    else do start ((← (Scan.word cs).close?) ++ done) c

def tokens? (cs : List Char) : Option (List Token) := do
  let (done, scan) ← cs.foldlM step ([], .between)
  return ((← scan.close?) ++ done).reverse

/-- A container whose end was not reached yet. Its parts are kept in reverse. -/
private inductive Frame where
  | array (items : List Json)
  | object (members : List (String × Json)) (key : String)

/-- What may follow. -/
private inductive Place where
  | value
  | itemOrClose
  | key (members : List (String × Json))
  | keyOrClose
  | after (j : Json)

private def build? : Place → List Frame → List Token → Option Json
  | .after j, [], [] => some j
  | .after j, .array items :: frames, .comma :: rest =>
    build? .value (.array (j :: items) :: frames) rest
  | .after j, .array items :: frames, .closeArray :: rest =>
    build? (.after (.array (j :: items).reverse)) frames rest
  | .after j, .object members k :: frames, .comma :: rest =>
    build? (.key ((k, j) :: members)) frames rest
  | .after j, .object members k :: frames, .closeObject :: rest =>
    build? (.after (.ofMembers ((k, j) :: members).reverse)) frames rest
  | .itemOrClose, .array [] :: frames, .closeArray :: rest =>
    build? (.after (.array [])) frames rest
  | .keyOrClose, frames, .closeObject :: rest => build? (.after (.object [])) frames rest
  | .keyOrClose, frames, .text k :: .colon :: rest => build? .value (.object [] k :: frames) rest
  | .key members, frames, .text k :: .colon :: rest =>
    build? .value (.object members k :: frames) rest
  | .value, frames, .openArray :: rest => build? .itemOrClose (.array [] :: frames) rest
  | .itemOrClose, frames, .openArray :: rest => build? .itemOrClose (.array [] :: frames) rest
  | .value, frames, .openObject :: rest => build? .keyOrClose frames rest
  | .itemOrClose, frames, .openObject :: rest => build? .keyOrClose frames rest
  | .value, frames, .text s :: rest => build? (.after (.string s)) frames rest
  | .itemOrClose, frames, .text s :: rest => build? (.after (.string s)) frames rest
  | .value, frames, .scalar j :: rest => build? (.after j) frames rest
  | .itemOrClose, frames, .scalar j :: rest => build? (.after j) frames rest
  | _, _, _ => none

/-- The tree that a text denotes. -/
def parse? (cs : List Char) : Option Json := do
  build? .value [] (← tokens? cs)

end ProgramGraph.Json
