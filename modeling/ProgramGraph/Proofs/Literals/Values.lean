import Mathlib.Algebra.Ring.Int.Defs
import ProgramGraph.Proofs.Literals.Powers
import ProgramGraph.Proofs.Meaning.Semantics

/-! Values of expressions as programs compute them: integers have no bound, reals are binary64 numbers
and keep the sign of zero. -/
namespace ProgramGraph

/-- A finite real with the sign that it is written with. -/
structure Floating where
  number : Binary64
  negative : Bool
  negative_eq : number.value ≠ 0 → negative = decide (number.value < 0)
deriving DecidableEq

namespace Floating

/-- The real that a number is; only zero takes the given sign. -/
def make (x : Binary64) (negativeZero : Bool) : Floating where
  number := x
  negative := if x.value = 0 then negativeZero else decide (x.value < 0)
  negative_eq h := if_neg h

def ofInt? (n : Int) : Option Floating := (Binary64.ofInt? n).map (make · false)

def isOdd (r : Floating) : Bool := r.number.toInt?.any (· % 2 = 1)

def isNegativeZero (r : Floating) : Bool := r.negative && r.number.value = 0

/-- Each operation rounds once. Nothing is said of the quotient and the remainder of a floor
division, of powers that are no numbers, which may be off by a place, nor of results beyond the finite
numbers. -/
def binary (op : BinaryOp) (a b : Floating) : Option Floating :=
  let x := a.number.value
  let y := b.number.value
  match op with
  | .add => (Binary64.round? (x + y)).map (make · (a.negative && b.negative))
  | .sub => (Binary64.round? (x - y)).map (make · (a.negative && !b.negative))
  | .mult => (Binary64.round? (x * y)).map (make · (a.negative != b.negative))
  | .div =>
    if y = 0 then none else (Binary64.round? (x / y)).map (make · (a.negative != b.negative))
  | .floorDiv | .mod => none
  | .pow => (a.number.exactPower? b.number).map (make · (a.negative && b.isOdd))

end Floating

/-- Values of the four domains. -/
inductive Value where
  | integer (n : Int)
  | real (r : Floating)
  | string (s : String)
  | boolean (b : Bool)
deriving DecidableEq

namespace Value

def domain : Value → Domain
  | integer _ => .integer
  | real _ => .real
  | string _ => .string
  | boolean _ => .boolean

/-- The value as it is printed. -/
def text : Value → String
  | integer n => toString n
  | real r => if r.isNegativeZero then "-0.0" else Notation.real.write r.number
  | string s => s
  | boolean b => if b then "True" else "False"

def truth : Value → Bool
  | integer n => n ≠ 0
  | real r => r.number.value ≠ 0
  | string s => s ≠ ""
  | boolean b => b

def isNegativeZero : Value → Bool
  | real r => r.isNegativeZero
  | _ => false

/-- Truth values count as integers. -/
def integer? : Value → Option Int
  | integer n => some n
  | boolean b => some (if b then 1 else 0)
  | _ => none

def floating? : Value → Option Floating
  | real r => some r
  | v => v.integer? >>= Floating.ofInt?

/-- The exact number, which comparisons are made with. -/
def rational? : Value → Option Rat
  | real r => some r.number.value
  | v => v.integer?.map Int.cast

def unary (op : UnaryOp) (v : Value) : Option Value :=
  match op, v with
  | .not, v => some (boolean !v.truth)
  | .pos, real r => some (real r)
  | .pos, v => v.integer?.map integer
  | .neg, real r => (Literal.negate? r.number).map fun x => real (.make x !r.negative)
  | .neg, v => v.integer?.map fun n => integer (-n)

/-- Operations on integers are exact but for quotients and powers with a negative exponent, which are
real. -/
def integerBinary (op : BinaryOp) (m n : Int) : Option Value :=
  match op with
  | .add => some (integer (m + n))
  | .sub => some (integer (m - n))
  | .mult => some (integer (m * n))
  | .div =>
    if n = 0 then none
    else (Binary64.round? ((m : Rat) / n)).map fun x =>
      real (.make x (decide (m < 0) != decide (n < 0)))
  | .floorDiv => if n = 0 then none else some (integer (m.fdiv n))
  | .mod => if n = 0 then none else some (integer (m.fmod n))
  | .pow =>
    if 0 ≤ n then some (integer (m ^ n.toNat))
    else do return real (← Floating.binary .pow (← Floating.ofInt? m) (← Floating.ofInt? n))

/-- Integers stay among themselves, and become reals beside a real. Texts are joined; what else can
be done to them is left open. -/
def binary (op : BinaryOp) (a b : Value) : Option Value :=
  match a.integer?, b.integer? with
  | some m, some n => integerBinary op m n
  | _, _ =>
    match a.floating?, b.floating? with
    | some x, some y => (Floating.binary op x y).map real
    | _, _ =>
      match op, a, b with
      | .add, string s, string t => some (string (s ++ t))
      | _, _, _ => none

/-- Numbers compare by value and texts by code points. Between other values there is no order. -/
def compare (op : CompareOp) (a b : Value) : Option Bool :=
  match a.rational?, b.rational? with
  | some x, some y => some (op.holds (compareOfLessAndEq x y))
  | _, _ =>
    match a, b with
    | string s, string t => some (op.holds (compareOfLessAndEq s t))
    | _, _ =>
      match op with
      | .eq => some false
      | .notEq => some true
      | _ => none

/-- A chain of comparisons ends at the first one that does not hold. -/
def chain (a : Option Value) : List (CompareOp × Option Value) → Option Value
  | [] => a
  | [(op, b)] => do return boolean (← compare op (← a) (← b))
  | (op, b) :: rest => do
    if ← compare op (← a) (← b) then chain b rest else return boolean false

/-- A connective gives the last operand that it comes to. -/
def connect (op : BoolOp) : List (Option Value) → Option Value
  | [] => none
  | [v] => v
  | v :: rest => do
    let a ← v
    let goesOn := match op with
      | .and => a.truth
      | .or => !a.truth
    if goesOn then connect op rest else return a

end Value

/-- The value that a literal stands for, if its scalar belongs to its domain. -/
def Literal.value? (l : Literal) : Option Value :=
  match l.domain, l.value with
  | .integer, .number x => x.toInt?.map .integer
  | .real, .number x => some (.real (.make x false))
  | .string, .string s => some (.string s)
  | .boolean, .bool b => some (.boolean b)
  | _, _ => none

/-- Expressions over the values of the four domains, with any functions to call. Nothing is said of
lists, tuples and their elements, nor of operations that fail. -/
def Interpretation.standard (call : String → List (Option Value) → Option Value) :
    Interpretation (Option Value) where
  undefined := none
  truth v := v.any Value.truth
  constant := Literal.value?
  unary op v := v >>= Value.unary op
  binary op a b := do Value.binary op (← a) (← b)
  boolean := Value.connect
  compare := Value.chain
  call := call
  list _ := none
  tuple _ := none
  element _ _ := none
  update _ _ _ := none

end ProgramGraph
