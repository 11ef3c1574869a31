import Mathlib.Logic.Function.Basic
import ProgramGraph.Proofs.Follows.Basic

/-! What blocks without loops do to a store, and what the records of their layouts do to versions. -/
namespace ProgramGraph

open ProgramGraph.Graph

/-- Values and the operations on them, of which nothing is assumed. -/
structure Interpretation (V : Type) where
  /-- What is read where nothing is known. -/
  undefined : V
  truth : V → Bool
  constant : Literal → V
  unary : UnaryOp → V → V
  binary : BinaryOp → V → V → V
  boolean : BoolOp → List V → V
  /-- A chain of comparisons. -/
  compare : V → List (CompareOp × V) → V
  call : String → List V → V
  list : List V → V
  tuple : List V → V
  element : V → V → V
  /-- An array with one element replaced. -/
  update : V → V → V → V

variable {V : Type}

/-- The name that a call refers to. -/
def Expr.calleeName (func : Expr) : String := ((func.callee none).toOption).getD ""

mutual

def Expr.eval (I : Interpretation V) (σ : String → V) (e : Expr) : V :=
  match e with
  | .constant l _ => I.constant l
  | .name id _ _ => σ id
  | .binary op left right _ => I.binary op (left.eval I σ) (right.eval I σ)
  | .unary op operand _ => I.unary op (operand.eval I σ)
  | .boolean op values _ => I.boolean op (evalOfEach I σ values)
  | .compare left ops comparators _ =>
    I.compare (left.eval I σ) (ops.zip (evalOfEach I σ comparators))
  | .call func args _ _ => I.call func.calleeName (evalOfEach I σ args)
  | .subscript value index _ _ => I.element (value.eval I σ) (index.eval I σ)
  | .list elements _ _ => I.list (evalOfEach I σ elements)
  | .tuple elements _ _ => I.tuple (evalOfEach I σ elements)
  | .member .. | .unsupported .. => I.undefined

def Expr.evalOfEach (I : Interpretation V) (σ : String → V) (es : List Expr) : List V :=
  match es with
  | [] => []
  | e :: rest => e.eval I σ :: evalOfEach I σ rest

end

/-- What the variable of a target holds once the target has received a value. -/
def Expr.assigned (I : Interpretation V) (σ : String → V) (target : Expr) (value : V) : V :=
  match target with
  | .subscript (.name x _ _) index _ _ => I.update (σ x) (index.eval I σ) value
  | _ => value

/-- Assign a value to a target. -/
def Expr.store (I : Interpretation V) (target : Expr) (value : V) (σ : String → V) : String → V :=
  match target.targetName? with
  | some x => Function.update σ x (target.assigned I σ value)
  | none => σ

mutual

def Stmt.exec (I : Interpretation V) (s : Stmt) (σ : String → V) : String → V :=
  match s with
  | .assign [target] value _ => target.store I (value.eval I σ) σ
  | .annAssign target _ (some value) _ => target.store I (value.eval I σ) σ
  | .branch test body orelse _ =>
    if I.truth (test.eval I σ) then execBlock I body σ else execBlock I orelse σ
  | _ => σ

def Stmt.execBlock (I : Interpretation V) (block : List Stmt) (σ : String → V) : String → V :=
  match block with
  | [] => σ
  | s :: rest => execBlock I rest (s.exec I σ)

end

mutual

/-- Assignments to one target, declarations whose value is not a list display, calls for their
effect, and conditionals of these. -/
def Stmt.isLoopFree (s : Stmt) : Bool :=
  match s with
  | .assign [_] _ _ => true
  | .annAssign _ _ (some (.list ..)) _ => false
  | .annAssign .. => true
  | .branch _ body orelse _ => allLoopFree body && allLoopFree orelse
  | .expr .. => true
  | _ => false

def Stmt.allLoopFree (block : List Stmt) : Bool :=
  match block with
  | [] => true
  | s :: rest => s.isLoopFree && allLoopFree rest

end

/-- What a record stands for. -/
inductive Meaning where
  | assignment (target value : Expr)
  | test (e : Expr)
  /-- A choice between what two branches leave behind. -/
  | decision (thenExit elseExit : Versions)
  | effect

def Stmt.meaning : Stmt → Meaning
  | .assign [target] value _ | .annAssign target _ (some value) _ => .assignment target value
  | _ => .effect

/-- The records of a layout in order, each with what it stands for. -/
def Layout.steps : Layout → List (Record × Meaning)
  | .nil => []
  | .simple s made rest => made.records.map (·, s.meaning) ++ rest.steps
  | .branch test _ tested thenPart thenExit elsePart elseExit decisions rest =>
    tested.records.map (·, .test test) ++ thenPart.steps ++ elsePart.steps ++
      decisions.records.map (·, .decision thenExit elseExit) ++ rest.steps
  | .loop _ _ _ name inputs _ rest => (.loop name inputs, .effect) :: rest.steps
  | .definition _ _ _ _ rest => rest.steps

private theorem map_fst_pair (records : List Record) (m : Meaning) :
    (records.map (·, m)).map Prod.fst = records := by
  rw [List.map_map]
  exact List.map_id _

theorem Layout.steps_records (L : Layout) : L.steps.map Prod.fst = L.records := by
  induction L with
  | nil => rfl
  | simple s made rest ih =>
    change _ = made.records ++ rest.records
    rw [← ih, steps, List.map_append, map_fst_pair]
  | branch test condition tested T v E w decisions rest ihT ihE ih =>
    change _ = tested.records ++ T.records ++ E.records ++ decisions.records ++ rest.records
    rw [← ihT, ← ihE, ← ih]
    simp only [steps, List.map_append, map_fst_pair]
  | loop iter index range name inputs B rest _ ih => exact congrArg (_ :: ·) ih
  | definition name input vars B rest _ ih => exact ih

/-- The store that a record sees: nothing but its inputs. -/
def inputStore (I : Interpretation V) (ρ : Reference → V) (input : List Input) (x : String) : V :=
  match (input.filterMap Input.reference?).find? (·.name = x) with
  | some r => ρ r
  | none => I.undefined

/-- The value that a record computes from its inputs. A decision takes one of its two candidates:
the version that the selected branch leaves behind. -/
def Meaning.value (I : Interpretation V) (ρ : Reference → V) (m : Meaning) (output : Reference)
    (input : List Input) : V :=
  match m with
  | .assignment target value =>
    let σ := inputStore I ρ input
    target.assigned I σ (value.eval I σ)
  | .test e => e.eval I (inputStore I ρ input)
  | .decision thenExit elseExit =>
    match input with
    | [.ref condition, .ref first, .ref second] =>
      let exit := if I.truth (ρ condition) then thenExit else elseExit
      let chosen : Reference := ⟨output.name, exit.current output.name⟩
      if chosen = first ∨ chosen = second then ρ chosen else I.undefined
    | _ => I.undefined
  | .effect => I.undefined

/-- A record sets the version that it computes. -/
def Graph.Record.run (I : Interpretation V) (r : Record) (m : Meaning) (ρ : Reference → V) :
    Reference → V :=
  match r with
  | .value _ output input => Function.update ρ output (m.value I ρ output input)
  | .call .. | .loop .. => ρ

/-- Run records in order. -/
def run (I : Interpretation V) (steps : List (Record × Meaning)) (ρ : Reference → V) :
    Reference → V :=
  steps.foldl (fun ρ p => p.1.run I p.2 ρ) ρ

theorem run_append (I : Interpretation V) (ps qs : List (Record × Meaning)) (ρ : Reference → V) :
    run I (ps ++ qs) ρ = run I qs (run I ps ρ) := List.foldl_append

/-- Only what a record computes is changed. -/
theorem run_of_not_mem (I : Interpretation V) {steps : List (Record × Meaning)}
    {ρ : Reference → V} {q : Reference} (h : q ∉ (steps.map Prod.fst).filterMap Record.output?) :
    run I steps ρ q = ρ q := by
  induction steps generalizing ρ with
  | nil => rfl
  | cons p steps ih =>
    obtain ⟨r, m⟩ := p
    change run I steps (r.run I m ρ) q = ρ q
    cases r with
    | value name output input =>
      change q ∉ output :: (steps.map Prod.fst).filterMap Record.output? at h
      rw [List.mem_cons, not_or] at h
      rw [ih h.2]
      exact Function.update_of_ne h.1 _ _
    | call => exact ih h
    | loop => exact ih h

end ProgramGraph
