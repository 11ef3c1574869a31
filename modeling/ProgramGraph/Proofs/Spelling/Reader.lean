import ProgramGraph.Proofs.Spelling.Leaves
import ProgramGraph.Syntax.Source

/-! A reader of the text of expressions. It looks at what comes first: operands end where nothing
more is applied to them, operations where no operator follows. -/
namespace ProgramGraph.Spelling

/-- An operator between two operands. -/
inductive Link where
  | binary (op : BinaryOp)
  | boolean (op : BoolOp)
  | compare (op : CompareOp)
deriving DecidableEq

namespace Link

def symbol : Link → String
  | binary op => op.symbol
  | boolean op => op.symbol
  | compare op => op.symbol

def all : List Link :=
  BinaryOp.all.map binary ++ BoolOp.all.map boolean ++ CompareOp.all.map compare

def compare? : Link → Option CompareOp
  | compare op => some op
  | _ => none

end Link

/-- The operator that a text starts with, between blanks. -/
def link? : List Char → Option (Link × List Char)
  | ' ' :: cs =>
    match cs.span (· ≠ ' ') with
    | (s, ' ' :: rest) => (Link.all.find? (·.symbol.toList = s)).map (·, rest)
    | _ => none
  | _ => none

/-- The operator that a text starts with, before its only operand. -/
def unary? : List Char → Option (UnaryOp × List Char)
  | '-' :: cs => some (.neg, cs)
  | '+' :: cs => some (.pos, cs)
  | cs =>
    match spanWord cs with
    | (['n', 'o', 't'], ' ' :: rest) => some (.not, rest)
    | _ => none

/-- The operation on operands with operators between them, which are all of one kind. -/
def linked (first : Expr) : List (Link × Expr) → Expr
  | [] => first
  | (.binary op, e) :: _ => .binary op first e none
  | (.boolean op, e) :: rest => .boolean op (first :: e :: rest.map Prod.snd) none
  | (.compare op, e) :: rest =>
    .compare first (op :: rest.filterMap (·.1.compare?)) (e :: rest.map Prod.snd) none

theorem linked_compare (first : Expr) {ops : List CompareOp} {es : List Expr} (hops : ops ≠ [])
    (h : ops.length = es.length) :
    linked first ((ops.map Link.compare).zip es) = .compare first ops es none := by
  match ops, es, h with
  | [], _, _ => exact absurd rfl hops
  | op :: ops, e :: es, h =>
    have hlength : (ops.map Link.compare).length = es.length := by
      simpa using h
    have hops : ((ops.map Link.compare).zip es).filterMap (·.1.compare?) = ops :=
      calc ((ops.map Link.compare).zip es).filterMap (·.1.compare?)
          = (((ops.map Link.compare).zip es).map Prod.fst).filterMap Link.compare? := by
            rw [List.filterMap_map]
            rfl
        _ = (ops.map Link.compare).filterMap Link.compare? := by rw [List.map_fst_zip hlength.le]
        _ = ops := by
          rw [List.filterMap_map]
          exact List.filterMap_some
    rw [List.map_cons, List.zip_cons_cons, linked, hops, List.map_snd_zip hlength.ge]

/-- What is left of a text behind something in it. -/
abbrev Rest (cs : List Char) := { rest : List Char // rest.length < cs.length }

theorem length_rest_lt {cs : List Char} (rest : Rest cs) : rest.1.length < cs.length := rest.2

-- The reader goes on with shorter texts only, so that it ends; each word and bracket it has passed
-- makes the text shorter, and no reading is lost.
/-- A shorter text as what is left of a longer one. -/
def behind (cs rest : List Char) : Option (Rest cs) :=
  if h : rest.length < cs.length then some ⟨rest, h⟩ else none

theorem behind_eq {cs rest : List Char} (h : rest.length < cs.length) :
    behind cs rest = some ⟨rest, h⟩ := dif_pos h

theorem length_lt_append {text rest : List Char} (h : text ≠ []) :
    rest.length < (text ++ rest).length := by
  have hpos : 0 < text.length := List.length_pos_iff.mpr h
  rw [List.length_append]
  omega

/-- What comes behind two brackets and what is between them. -/
theorem length_lt_enclosed (opening close : Char) (text rest : List Char) :
    rest.length < (opening :: (text ++ close :: rest)).length := by
  simp only [List.length_cons, List.length_append]
  omega

mutual

/-- An operand at the start of a text, and what follows it. -/
def operand (cs : List Char) : Option (Expr × List Char) := do
  let (e, rest) ← head cs
  let rest ← behind cs rest
  applied e rest.1
termination_by (cs.length, 1)
decreasing_by
  · exact .right _ (by decide)
  · exact .left _ _ (length_rest_lt _)

/-- An operand without what is applied to it. In parentheses stands a tuple, or one operation. -/
def head (cs : List Char) : Option (Expr × List Char) :=
  match cs with
  | '(' :: cs => do
    let ((es, comma), cs) ← items ')' cs
    match es, comma with
    | [e], false => return (e, cs)
    | es, _ => return (.tuple es .load none, cs)
  | '[' :: cs => do
    let ((es, _), cs) ← items ']' cs
    return (.list es .load none, cs)
  | '"' :: cs => do
    let (s, cs) ← Text.unquote? cs
    return (.constant ⟨.string, .string (String.ofList s)⟩ none, cs)
  | cs => word? cs
termination_by (cs.length, 0)
decreasing_by all_goals exact .left _ _ (Nat.lt_succ_self _)

/-- What is applied to an operand: attributes, calls and subscripts. -/
def applied (e : Expr) (cs : List Char) : Option (Expr × List Char) :=
  match cs with
  | '.' :: cs => do
    let (attr, rest) := spanWord cs
    let rest ← behind ('.' :: cs) rest
    applied (.member e (String.ofList attr) .load none) rest.1
  | '(' :: cs => do
    let ((es, _), rest) ← items ')' cs
    let rest ← behind ('(' :: cs) rest
    applied (.call e es [] none) rest.1
  | '[' :: cs => do
    match ← whole cs with
    | (i, ']' :: rest) =>
      let rest ← behind ('[' :: cs) rest
      applied (.subscript e i .load none) rest.1
    | _ => none
  | cs => some (e, cs)
termination_by (cs.length, 0)
decreasing_by
  · exact .left _ _ (length_rest_lt _)
  · exact .left _ _ (Nat.lt_succ_self _)
  · exact .left _ _ (length_rest_lt _)
  · exact .left _ _ (Nat.lt_succ_self _)
  · exact .left _ _ (length_rest_lt _)

/-- Operators with the operands behind them. -/
def links (cs : List Char) : Option (List (Link × Expr) × List Char) :=
  match link? cs with
  | none => some ([], cs)
  | some (link, rest) => do
    let rest ← behind cs rest
    let (e, rest) ← operand rest.1
    let rest ← behind cs rest
    let (joints, rest) ← links rest.1
    return ((link, e) :: joints, rest)
termination_by (cs.length, 0)
decreasing_by all_goals exact .left _ _ (length_rest_lt _)

/-- A whole expression at the start of a text, and what follows it. -/
def whole (cs : List Char) : Option (Expr × List Char) :=
  match unary? cs with
  | some (op, rest) => do
    let rest ← behind cs rest
    let (e, rest) ← operand rest.1
    return (.unary op e none, rest)
  | none => do
    let (first, rest) ← operand cs
    let rest ← behind cs rest
    let (joints, rest) ← links rest.1
    return (linked first joints, rest)
termination_by (cs.length, 2)
decreasing_by
  · exact .left _ _ (length_rest_lt _)
  · exact .right _ (by decide)
  · exact .left _ _ (length_rest_lt _)

/-- Expressions up to a closing bracket, and whether there is a comma before it. -/
def items (close : Char) (cs : List Char) : Option ((List Expr × Bool) × List Char) :=
  if cs.head? = some close then some (([], false), cs.tail)
  else do
    match ← whole cs with
    | (e, ',' :: ' ' :: rest) => do
      let rest ← behind cs rest
      let ((es, comma), rest) ← items close rest.1
      return ((e :: es, comma), rest)
    | (e, ',' :: rest) => if rest.head? = some close then some (([e], true), rest.tail) else none
    | (e, rest) => if rest.head? = some close then some (([e], false), rest.tail) else none
termination_by (cs.length, 3)
decreasing_by
  · exact .right _ (by decide)
  · exact .left _ _ (length_rest_lt _)

end

/-- No word goes on here, and nothing is applied to what comes before. -/
structure Pauses (rest : List Char) : Prop where
  breaks : Breaks rest
  applied (e : Expr) : applied e rest = some (e, rest)

/-- Nor does an operator follow. -/
structure Ends (rest : List Char) : Prop extends Pauses rest where
  link? : link? rest = none

theorem pauses_nil : Pauses [] where
  breaks := nofun
  applied e := by
    rw [Spelling.applied]
    all_goals simp

theorem pauses_cons {c : Char} {cs : List Char} (hw : isWordChar c = false) (hd : c ≠ '.')
    (hp : c ≠ '(') (hb : c ≠ '[') : Pauses (c :: cs) where
  breaks d hd := by
    obtain rfl := Option.some.inj hd
    exact hw
  applied e := by
    rw [Spelling.applied]
    all_goals simp_all

theorem ends_nil : Ends [] := ⟨pauses_nil, rfl⟩

/-- Behind a closing bracket, a comma or a colon no operation goes on. -/
theorem ends_cons {c : Char} {cs : List Char} (h : c ∈ [',', ')', ']', ':']) : Ends (c :: cs) := by
  have hpauses : isWordChar c = false ∧ c ≠ '.' ∧ c ≠ '(' ∧ c ≠ '[' ∧ c ≠ ' ' := by
    simp only [List.mem_cons, List.not_mem_nil, or_false] at h
    rcases h with rfl | rfl | rfl | rfl <;> decide
  obtain ⟨hw, hd, hp, hb, hs⟩ := hpauses
  refine ⟨pauses_cons hw hd hp hb, ?_⟩
  unfold Spelling.link?
  split
  · simp_all
  · rfl

/-- Nor does one behind the sign of an assignment. -/
theorem ends_assignment (cs : List Char) : Ends (' ' :: '=' :: ' ' :: cs) :=
  ⟨pauses_cons (by decide) (by decide) (by decide) (by decide), rfl⟩

theorem link?_symbol (l : Link) (rest : List Char) :
    link? (' ' :: (l.symbol.toList ++ ' ' :: rest)) = some (l, rest) := by
  cases l with
  | binary op => cases op <;> rfl
  | boolean op => cases op <;> rfl
  | compare op => cases op <;> rfl

theorem unary?_symbol (op : UnaryOp) (rest : List Char) :
    unary? (op.symbol.toList ++ rest) = some (op, rest) := by
  cases op <;> rfl

theorem unary?_cons {c : Char} (hneg : c ≠ '-') (hpos : c ≠ '+') (hw : isWordChar c = false)
    (cs : List Char) : unary? (c :: cs) = none := by
  simp [unary?, spanWord, hneg, hpos, hw]

theorem unary?_word {w rest : List Char} (hne : w ≠ []) (hnot : w ≠ "not".toList)
    (hw : w.all isWordChar = true) (hr : Breaks rest) : unary? (w ++ rest) = none := by
  have hspan := spanWord_append hw hr
  cases w with
  | nil => exact absurd rfl hne
  | cons c w =>
    have hc : isWordChar c = true := List.all_eq_true.mp hw c List.mem_cons_self
    unfold unary?
    split
    · simp_all [isWordChar]
    · simp_all [isWordChar]
    · rw [hspan]
      split
      · simp_all
      · rfl

/-- No expression starts with a closing bracket. -/
theorem whole_close {c : Char} (h : c = ')' ∨ c = ']') (cs : List Char) :
    whole (c :: cs) = none := by
  rcases h with rfl | rfl
  · rw [whole, show unary? (')' :: cs) = none from rfl]
    simp only [operand]
    rw [head]
    all_goals simp [word?, spanWord, isWordChar]
  · rw [whole, show unary? (']' :: cs) = none from rfl]
    simp only [operand]
    rw [head]
    all_goals simp [word?, spanWord, isWordChar]

end ProgramGraph.Spelling
