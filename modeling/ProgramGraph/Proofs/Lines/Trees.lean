import Mathlib.Control.Basic
import ProgramGraph.Lowering.Program

/-! Trees without their line numbers, and faults that do not show one. Reading the operands of an
expression and writing its text come out the same without lines, but for the line of a fault. -/
namespace ProgramGraph

mutual

def Expr.withoutLines (e : Expr) : Expr :=
  match e with
  | .constant v _ => .constant v none
  | .name id access _ => .name id access none
  | .member value attr access _ => .member value.withoutLines attr access none
  | .binary op left right _ => .binary op left.withoutLines right.withoutLines none
  | .unary op operand _ => .unary op operand.withoutLines none
  | .boolean op values _ => .boolean op (withoutLinesOfEach values) none
  | .compare left ops comparators _ =>
    .compare left.withoutLines ops (withoutLinesOfEach comparators) none
  | .call func args keywords _ => .call func.withoutLines (withoutLinesOfEach args) keywords none
  | .subscript value index access _ =>
    .subscript value.withoutLines index.withoutLines access none
  | .list elements access _ => .list (withoutLinesOfEach elements) access none
  | .tuple elements access _ => .tuple (withoutLinesOfEach elements) access none
  | .unsupported nodeType _ => .unsupported nodeType none

def Expr.withoutLinesOfEach (es : List Expr) : List Expr :=
  match es with
  | [] => []
  | e :: rest => e.withoutLines :: withoutLinesOfEach rest

end

theorem Expr.withoutLinesOfEach_eq (es : List Expr) :
    withoutLinesOfEach es = es.map withoutLines := by
  induction es with
  | nil => rfl
  | cons e es ih => rw [withoutLinesOfEach, ih, List.map_cons]

def Parameter.withoutLines (p : Parameter) : Parameter :=
  ⟨p.name, p.typeExpr.map Expr.withoutLines, none⟩

mutual

def Stmt.withoutLines (s : Stmt) : Stmt :=
  match s with
  | .functionDef name parameters body _ =>
    .functionDef name (parameters.map Parameter.withoutLines) (withoutLinesOfEach body) none
  | .assign targets value _ => .assign (targets.map Expr.withoutLines) value.withoutLines none
  | .annAssign target typeExpr value _ =>
    .annAssign target.withoutLines typeExpr.withoutLines (value.map Expr.withoutLines) none
  | .branch test body orelse _ =>
    .branch test.withoutLines (withoutLinesOfEach body) (withoutLinesOfEach orelse) none
  | .loop target iter body orelse _ =>
    .loop target.withoutLines iter.withoutLines (withoutLinesOfEach body)
      (withoutLinesOfEach orelse) none
  | .expr value _ => .expr value.withoutLines none
  | .unsupported nodeType _ => .unsupported nodeType none

def Stmt.withoutLinesOfEach (block : List Stmt) : List Stmt :=
  match block with
  | [] => []
  | s :: rest => s.withoutLines :: withoutLinesOfEach rest

end

def Module.withoutLines (m : Module) : Module := ⟨Stmt.withoutLinesOfEach m.body⟩

def Fault.withoutLine (f : Fault) : Fault := ⟨f.cause, none⟩

/-- What a fault says does not depend on its line. -/
theorem Fault.diagnostic_withoutLine (f : Fault) :
    f.withoutLine.diagnostic.code = f.diagnostic.code ∧
      f.withoutLine.diagnostic.message = f.diagnostic.message := by
  obtain ⟨cause, line⟩ := f
  cases cause <;> exact ⟨rfl, rfl⟩

section
variable {σ α β : Type}

/-- A result whose fault does not show its line. -/
def Except.hideLine (r : Except Fault α) : Except Fault α := r.mapError Fault.withoutLine

@[simp] theorem Except.hideLine_ok (a : α) : Except.hideLine (.ok a) = .ok a := rfl

@[simp] theorem Except.hideLine_error (f : Fault) :
    Except.hideLine (.error f : Except Fault α) = .error f.withoutLine := rfl

@[simp] theorem Except.hideLine_pure (a : α) :
    Except.hideLine (pure a : Except Fault α) = pure a := rfl

@[simp] theorem Except.hideLine_bind (r : Except Fault α) (f : α → Except Fault β) :
    Except.hideLine (r >>= f) = Except.hideLine r >>= fun a => Except.hideLine (f a) := by
  cases r <;> rfl

/-- A computation whose fault does not show its line. -/
def hideLine (m : StateT σ (Except Fault) α) : StateT σ (Except Fault) α := fun s =>
  Except.hideLine (m s)

@[simp] theorem hideLine_pure (a : α) :
    hideLine (pure a : StateT σ (Except Fault) α) = pure a := rfl

@[simp] theorem hideLine_bind (m : StateT σ (Except Fault) α)
    (f : α → StateT σ (Except Fault) β) :
    hideLine (m >>= f) = hideLine m >>= fun a => hideLine (f a) := by
  funext s
  change Except.hideLine (m s >>= fun p => f p.1 p.2) = _
  rw [Except.hideLine_bind]
  rfl

end

namespace Versioning
variable {α : Type}

@[simp] theorem hideLine_read (x : String) : hideLine (read x) = read x := rfl

@[simp] theorem hideLine_write (x : String) : hideLine (write x) = write x := rfl

@[simp] theorem hideLine_refuse (cause : Refusal) (line : Option Int) :
    hideLine (refuse cause line : Versioning α) = refuse cause none := rfl

@[simp] theorem hideLine_ofResult (r : Except Fault α) :
    hideLine (ofResult r) = ofResult (Except.hideLine r) := by
  cases r <;> rfl

end Versioning

namespace Expr

theorem line_withoutLines (e : Expr) : e.withoutLines.line = none := by
  cases e <;> rfl

theorem isSequence_withoutLines (e : Expr) : e.withoutLines.isSequence = e.isSequence := by
  cases e <;> rfl

theorem isConstantIndex_withoutLines (e : Expr) :
    e.withoutLines.isConstantIndex = e.isConstantIndex := by
  cases e with
  | unary op operand line => cases op <;> cases operand <;> rfl
  | _ => rfl

theorem callee_withoutLines (func : Expr) (line : Option Int) :
    func.withoutLines.callee none = Except.hideLine (func.callee line) := by
  cases func with
  | member value attr access own =>
    have hvalue := value.callee_withoutLines (line <|> own)
    change value.withoutLines.callee none >>= _ = Except.hideLine (value.callee _ >>= _)
    rw [hvalue, Except.hideLine_bind]
    rfl
  | _ => rfl

theorem subscriptBase_withoutLines (value index : Expr) (line : Option Int) :
    subscriptBase value.withoutLines index.withoutLines none =
      Except.hideLine (subscriptBase value index line) := by
  cases value with
  | name id access own =>
    simp only [withoutLines, subscriptBase, isConstantIndex_withoutLines]
    split <;> rfl
  | _ => rfl

theorem refuseKeywords_none (keywords : List String) (line : Option Int) :
    refuseKeywords keywords none = Except.hideLine (refuseKeywords keywords line) := by
  unfold refuseKeywords
  split <;> rfl

theorem binaryOperands_withoutLines (op : BinaryOp) (left right : Expr) :
    binaryOperands op left.withoutLines right.withoutLines = binaryOperands op left right := by
  funext ls rs
  unfold binaryOperands
  rw [isSequence_withoutLines, isSequence_withoutLines]

mutual

theorem operands_withoutLines (e : Expr) : e.withoutLines.operands = hideLine e.operands := by
  cases e with
  | constant v line => rfl
  | name id access line => cases access <;> rfl
  | member value attr access line => rfl
  | binary op left right line =>
    simp only [withoutLines, operands, hideLine_bind, hideLine_pure,
      operands_withoutLines left, operands_withoutLines right, binaryOperands_withoutLines]
  | unary op operand line =>
    simp only [withoutLines, operands, hideLine_bind, hideLine_pure,
      operands_withoutLines operand]
  | boolean op values line =>
    simp only [withoutLines, operands, hideLine_bind, hideLine_pure,
      operandsOfEach_withoutLines values]
  | compare left ops comparators line =>
    simp only [withoutLines, operands, hideLine_bind, hideLine_pure,
      operands_withoutLines left, operandsOfEach_withoutLines comparators]
  | call func args keywords line =>
    simp only [withoutLines, operands, hideLine_bind, hideLine_pure, Versioning.hideLine_ofResult,
      ← refuseKeywords_none keywords line, ← callee_withoutLines func line,
      operandsOfEach_withoutLines args]
  | subscript value index access line =>
    cases access with
    | load =>
      simp only [withoutLines, operands, hideLine_bind, hideLine_pure,
        Versioning.hideLine_ofResult, Versioning.hideLine_read,
        ← subscriptBase_withoutLines value index line]
    | _ => rfl
  | list elements access line =>
    cases access with
    | load =>
      simp only [withoutLines, operands, hideLine_bind, hideLine_pure,
        operandsOfEach_withoutLines elements]
    | _ => rfl
  | tuple elements access line =>
    cases access with
    | load =>
      simp only [withoutLines, operands, hideLine_bind, hideLine_pure,
        operandsOfEach_withoutLines elements]
    | _ => rfl
  | unsupported nodeType line => rfl

theorem operandsOfEach_withoutLines (es : List Expr) :
    operandsOfEach (withoutLinesOfEach es) = hideLine (operandsOfEach es) := by
  cases es with
  | nil => rfl
  | cons e rest =>
    simp only [withoutLinesOfEach, operandsOfEach, hideLine_bind, hideLine_pure,
      operands_withoutLines e, operandsOfEach_withoutLines rest]

end

theorem callOperands_withoutLines (func : Expr) (args : List Expr) (keywords : List String)
    (line : Option Int) :
    callOperands func.withoutLines (withoutLinesOfEach args) keywords none =
      hideLine (callOperands func args keywords line) := by
  simp only [callOperands, hideLine_bind, hideLine_pure, Versioning.hideLine_ofResult,
    ← refuseKeywords_none keywords line, ← callee_withoutLines func line,
    operandsOfEach_withoutLines args]

theorem target_withoutLines (e : Expr) : e.withoutLines.target = hideLine e.target := by
  cases e with
  | subscript value index access line =>
    simp only [withoutLines, target, hideLine_bind, hideLine_pure, Versioning.hideLine_ofResult,
      Versioning.hideLine_read, Versioning.hideLine_write,
      ← subscriptBase_withoutLines value index line]
  | _ => rfl

theorem targets_withoutLines (ts : List Expr) :
    (ts.map withoutLines).mapM target = hideLine (ts.mapM target) := by
  induction ts with
  | nil => rfl
  | cons t ts ih =>
    simp only [List.map_cons, List.mapM_cons, hideLine_bind, hideLine_pure, ih,
      target_withoutLines t]

mutual

theorem source_withoutLines (e : Expr) (nested : Bool) :
    e.withoutLines.source nested = Except.hideLine (e.source nested) := by
  cases e with
  | constant v line => rfl
  | name id access line => rfl
  | member value attr access line =>
    simp only [withoutLines, source, Except.hideLine_bind, Except.hideLine_pure,
      source_withoutLines value]
  | binary op left right line =>
    simp only [withoutLines, source, Except.hideLine_bind, Except.hideLine_pure,
      source_withoutLines left, source_withoutLines right]
  | unary op operand line =>
    simp only [withoutLines, source, Except.hideLine_bind, Except.hideLine_pure,
      source_withoutLines operand]
  | boolean op values line =>
    simp only [withoutLines, source, Except.hideLine_bind, Except.hideLine_pure,
      sources_withoutLines values]
  | compare left ops comparators line =>
    simp only [withoutLines, source, Except.hideLine_bind, Except.hideLine_pure,
      source_withoutLines left, chainSource_withoutLines ops comparators line]
  | call func args keywords line =>
    simp only [withoutLines, source, Except.hideLine_bind, Except.hideLine_pure,
      source_withoutLines func, sources_withoutLines args]
  | subscript value index access line =>
    simp only [withoutLines, source, Except.hideLine_bind, Except.hideLine_pure,
      source_withoutLines value, source_withoutLines index]
  | list elements access line =>
    simp only [withoutLines, source, Except.hideLine_bind, Except.hideLine_pure,
      sources_withoutLines elements]
  | tuple elements access line =>
    simp only [withoutLines, source, Except.hideLine_bind, Except.hideLine_pure,
      sources_withoutLines elements]
  | unsupported nodeType line => rfl

theorem sources_withoutLines (es : List Expr) (nested : Bool) :
    sources (withoutLinesOfEach es) nested = Except.hideLine (sources es nested) := by
  cases es with
  | nil => rfl
  | cons e rest =>
    simp only [withoutLinesOfEach, sources, Except.hideLine_bind, Except.hideLine_pure,
      source_withoutLines e, sources_withoutLines rest]

theorem chainSource_withoutLines (ops : List CompareOp) (operands : List Expr)
    (line : Option Int) :
    chainSource ops (withoutLinesOfEach operands) none =
      Except.hideLine (chainSource ops operands line) := by
  cases ops with
  | nil => cases operands <;> rfl
  | cons op ops =>
    cases operands with
    | nil => rfl
    | cons e rest =>
      simp only [withoutLinesOfEach, chainSource, Except.hideLine_bind, Except.hideLine_pure,
        source_withoutLines e, chainSource_withoutLines ops rest line]

end

theorem unwrapList_withoutLines (e : Expr) :
    e.withoutLines.unwrapList = e.unwrapList.withoutLines := by
  cases e with
  | subscript value index access line =>
    cases value with
    | name id own line' =>
      by_cases hupper : id = "List"
      · subst id
        rfl
      by_cases hlower : id = "list"
      · subst id
        rfl
      simp [withoutLines, unwrapList, hupper, hlower]
    | _ => rfl
  | _ => rfl

theorem annotatedDomain?_withoutLines (e : Expr) :
    e.withoutLines.annotatedDomain? = e.annotatedDomain? := by
  unfold annotatedDomain?
  rw [unwrapList_withoutLines]
  cases e.unwrapList <;> rfl

theorem annotatedDomain_withoutLines (typeExpr : Option Expr) (subject : String)
    (line : Option Int) :
    annotatedDomain (typeExpr.map withoutLines) subject none =
      Except.hideLine (annotatedDomain typeExpr subject line) := by
  cases typeExpr with
  | none => rfl
  | some a =>
    simp only [Option.map_some, annotatedDomain, annotatedDomain?_withoutLines,
      line_withoutLines]
    cases a.annotatedDomain? <;> rfl

end Expr

theorem Stmt.assignSource_withoutLines (targets : List Expr) (value : Expr) :
    assignSource (targets.map Expr.withoutLines) value.withoutLines =
      Except.hideLine (assignSource targets value) := by
  simp only [assignSource, Except.hideLine_bind, Except.hideLine_pure,
    ← Expr.withoutLinesOfEach_eq, Expr.sources_withoutLines targets,
    Expr.source_withoutLines value]

theorem Stmt.annAssignSource_withoutLines (target typeExpr : Expr) (value : Option Expr) :
    annAssignSource target.withoutLines typeExpr.withoutLines (value.map Expr.withoutLines) =
      Except.hideLine (annAssignSource target typeExpr value) := by
  cases value with
  | none =>
    simp only [annAssignSource, Option.map_none, Except.hideLine_bind, Except.hideLine_pure,
      Expr.source_withoutLines target, Expr.source_withoutLines typeExpr]
  | some value =>
    simp only [annAssignSource, Option.map_some, Except.hideLine_bind, Except.hideLine_pure,
      Expr.source_withoutLines target, Expr.source_withoutLines typeExpr,
      Expr.source_withoutLines value]

end ProgramGraph
