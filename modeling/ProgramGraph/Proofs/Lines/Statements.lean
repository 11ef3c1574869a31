import ProgramGraph.Proofs.Lines.Trees

/-! Statements without their line numbers are lowered to the same functions and records, but for
the lines that lambdas refer to, and leave the same state. -/
namespace ProgramGraph

namespace Graph

def Payload.withoutLine : Payload → Payload
  | .lambda name _ => .lambda name none
  | .literal domain text => .literal domain text

def Function.withoutLines : Function → Function
  | .assign name target sources payload => .assign name target sources payload.withoutLine
  | f => f

end Graph

open ProgramGraph.Graph

def Fragment.withoutLines (f : Fragment) : Fragment :=
  ⟨f.functions.map Function.withoutLines, f.records⟩

@[simp] theorem Fragment.withoutLines_append (f g : Fragment) :
    (f ++ g).withoutLines = f.withoutLines ++ g.withoutLines := by
  change Fragment.mk ((f.functions ++ g.functions).map Function.withoutLines) _ = _
  rw [List.map_append]
  rfl

/-- What is made last stands behind what its parts became. -/
theorem Fragment.withoutLines_concat (fs : List Function) (f : Function) (rs : List Record) :
    withoutLines ⟨fs ++ [f], rs⟩ = ⟨fs.map Function.withoutLines ++ [f.withoutLines], rs⟩ :=
  congrArg (Fragment.mk · rs) List.map_append

@[simp] theorem Fragment.withoutLines_empty : (∅ : Fragment).withoutLines = ∅ := rfl

namespace Lowering
variable {α : Type}

@[simp] theorem hideLine_scope : hideLine scope = scope := rfl

@[simp] theorem hideLine_latest : hideLine latest = latest := rfl

@[simp] theorem hideLine_modifyScope (f : Scope → Scope) :
    hideLine (modifyScope f) = modifyScope f := rfl

@[simp] theorem hideLine_take (key : String) : hideLine (take key) = take key := rfl

@[simp] theorem hideLine_next (base : String) : hideLine (next base) = next base := rfl

@[simp] theorem hideLine_emit (l : Lambda) : hideLine (emit l) = emit l := rfl

@[simp] theorem hideLine_refuse (cause : Refusal) (line : Option Int) :
    hideLine (refuse cause line : Lowering α) = refuse cause none := rfl

@[simp] theorem hideLine_ofResult (r : Except Fault α) :
    hideLine (ofResult r) = ofResult (Except.hideLine r) := by
  cases r <;> rfl

@[simp] theorem hideLine_claim (name : String) (line : Option Int) :
    hideLine (claim name line) = claim name none := by
  funext s
  unfold hideLine claim
  cases s.registry.claim? name <;> rfl

@[simp] theorem hideLine_versioning (m : Versioning α) :
    hideLine (versioning m) = versioning (hideLine m) := by
  funext s
  unfold hideLine versioning
  dsimp only
  cases m s.scope.versions <;> rfl

@[simp] theorem hideLine_setLatest (t : Table Int) : hideLine (setLatest t) = setLatest t := rfl

/-- What is made of a part of a program, without lines. -/
def unlined (m : Lowering Fragment) : Lowering Fragment := Fragment.withoutLines <$> hideLine m

theorem unlined_apply (m : Lowering Fragment) (s : LoweringState) :
    unlined m s = (Except.hideLine (m s)).map fun p => (p.1.withoutLines, p.2) := by
  change (Except.hideLine (m s) >>= fun p => _) = _
  cases m s <;> rfl

theorem unlined_bind (m : Lowering α) (f : α → Lowering Fragment) :
    unlined (m >>= f) = hideLine m >>= fun a => unlined (f a) := by
  rw [unlined, hideLine_bind, map_bind]
  rfl

theorem unlined_pure (f : Fragment) : unlined (pure f) = pure f.withoutLines := map_pure _ _

/-- Parts are put together without lines as they are with them. -/
theorem unlined_append (m n : Lowering Fragment) :
    (do
      let first ← unlined m
      return first ++ (← unlined n)) =
      unlined (do
        let first ← m
        return first ++ (← n)) := by
  simp only [unlined, hideLine_bind, hideLine_pure, map_bind, map_pure, bind_map_left,
    Fragment.withoutLines_append]

theorem assignTarget_unlined (statement : Except Fault String) (line : Option Int)
    (operands : List Operand) (t : Target) :
    assignTarget (Except.hideLine statement) none operands t =
      unlined (assignTarget statement line operands t) := by
  unfold assignTarget
  rw [unlined_bind, hideLine_scope]
  refine bind_congr fun s => ?_
  dsimp only
  rw [unlined_bind, hideLine_next]
  refine bind_congr fun name => ?_
  split
  · rw [unlined_bind, hideLine_modifyScope]
    rfl
  · rw [unlined_bind, hideLine_next]
    refine bind_congr fun lambda => ?_
    rw [unlined_bind, hideLine_ofResult]
    refine bind_congr fun body => ?_
    rw [unlined_bind, hideLine_emit]
    rfl

theorem assignTargets_unlined (statement : Except Fault String) (line : Option Int)
    (operands : List Operand) (ts : List Target) :
    assignTargets (Except.hideLine statement) none operands ts =
      unlined (assignTargets statement line operands ts) := by
  induction ts with
  | nil => rfl
  | cons t ts ih =>
    rw [assignTargets, assignTargets, assignTarget_unlined statement line, ih]
    exact unlined_append _ _

theorem assign_unlined (targets : List Expr) (value : Expr) (line : Option Int) :
    assign (targets.map Expr.withoutLines) value.withoutLines none =
      unlined (assign targets value line) := by
  unfold assign
  rw [unlined_bind, hideLine_versioning, ← Expr.operands_withoutLines]
  refine bind_congr fun operands => ?_
  rw [unlined_bind, hideLine_versioning, ← Expr.targets_withoutLines]
  refine bind_congr fun written => ?_
  rw [Stmt.assignSource_withoutLines]
  exact assignTargets_unlined _ line operands written

theorem declaredName_withoutLines (target : Expr) (line : Option Int) :
    declaredName target.withoutLines none = Except.hideLine (declaredName target line) := by
  cases target <;> rfl

theorem initialValue?_withoutLines (value : Option Expr) :
    initialValue? (value.map Expr.withoutLines) =
      (initialValue? value).map Expr.withoutLines := by
  cases value with
  | none => rfl
  | some e => cases e <;> rfl

theorem annAssign_unlined (target typeExpr : Expr) (value : Option Expr) (line : Option Int) :
    annAssign target.withoutLines typeExpr.withoutLines (value.map Expr.withoutLines) none =
      unlined (annAssign target typeExpr value line) := by
  unfold annAssign
  rw [unlined_bind, hideLine_ofResult, ← declaredName_withoutLines]
  refine bind_congr fun x => ?_
  rw [unlined_bind, hideLine_ofResult, ← Expr.annotatedDomain_withoutLines]
  refine bind_congr fun d => ?_
  rw [unlined_bind, hideLine_modifyScope]
  refine bind_congr fun _ => ?_
  rw [initialValue?_withoutLines]
  cases initialValue? value with
  | none => rfl
  | some v =>
    change (versioning v.withoutLines.operands >>= fun _ => _) = unlined (_ >>= fun _ => _)
    rw [unlined_bind, hideLine_versioning, ← Expr.operands_withoutLines]
    refine bind_congr fun operands => ?_
    rw [unlined_bind, hideLine_versioning, ← Expr.target_withoutLines]
    refine bind_congr fun written => ?_
    rw [Stmt.annAssignSource_withoutLines]
    exact assignTargets_unlined _ line operands [written]

theorem effectInputs_withoutLine (line : Option Int) (arguments : List (List Operand)) :
    effectInputs none arguments = Except.hideLine (effectInputs line arguments) := by
  induction arguments with
  | nil => rfl
  | cons os rest ih =>
    match os with
    | [] => rfl
    | [.literal l] => exact ih
    | [.ref r] => simp only [effectInputs, ih, Except.hideLine_bind, Except.hideLine_pure]
    | [.call callee arguments] => rfl
    | .literal _ :: _ :: _ | .ref _ :: _ :: _ | .call _ _ :: _ :: _ => rfl

theorem effect_unlined (value : Expr) (line : Option Int) :
    effect value.withoutLines none = unlined (effect value line) := by
  cases value with
  | call func args keywords own =>
    change (versioning (Expr.callOperands _ _ _ none) >>= fun _ => _) =
      unlined (versioning (Expr.callOperands func args keywords own) >>= fun _ => _)
    rw [unlined_bind, hideLine_versioning, ← Expr.callOperands_withoutLines]
    refine bind_congr fun (callee, arguments) => ?_
    dsimp only
    rw [unlined_bind, hideLine_ofResult, ← effectInputs_withoutLine]
    rfl
  | _ => rfl

theorem condition_unlined (test : Expr) (line : Option Int) :
    condition test.withoutLines none =
      Prod.map Fragment.withoutLines id <$> hideLine (condition test line) := by
  unfold condition
  simp only [hideLine_bind, hideLine_pure, hideLine_scope, hideLine_versioning, hideLine_take,
    hideLine_modifyScope, hideLine_next, hideLine_ofResult, hideLine_emit, map_bind, map_pure,
    ← Expr.operands_withoutLines, ← Expr.source_withoutLines]
  rfl

/-- Decisions show no line. -/
theorem mergeVariable_unlined (test : Reference) (start thenExit elseExit : Table Int)
    (x : String) :
    mergeVariable test start thenExit elseExit x =
      unlined (mergeVariable test start thenExit elseExit x) := by
  unfold mergeVariable
  rw [unlined_bind, hideLine_scope]
  refine bind_congr fun s => ?_
  split
  · rfl
  · dsimp only
    split
    · split <;> rfl
    · rfl

theorem mergeVariables_unlined (test : Reference) (start thenExit elseExit : Table Int)
    (names : List String) :
    mergeVariables test start thenExit elseExit names =
      unlined (mergeVariables test start thenExit elseExit names) := by
  induction names with
  | nil => rfl
  | cons x names ih =>
    rw [mergeVariables, ← unlined_append, ← ih, ← mergeVariable_unlined]

theorem branch_unlined (test : Expr) (line : Option Int)
    (thenBlock elseBlock : Lowering Fragment) :
    branch test.withoutLines none (unlined thenBlock) (unlined elseBlock) =
      unlined (branch test line thenBlock elseBlock) := by
  unfold branch
  rw [unlined_bind, condition_unlined test line, bind_map_left]
  refine bind_congr fun (tested, output) => ?_
  rw [unlined_bind, hideLine_latest]
  refine bind_congr fun start => ?_
  rw [unlined_bind, unlined, bind_map_left]
  refine bind_congr fun thenPart => ?_
  rw [unlined_bind, hideLine_latest]
  refine bind_congr fun thenExit => ?_
  rw [unlined_bind, hideLine_setLatest]
  refine bind_congr fun _ => ?_
  rw [unlined_bind, unlined, bind_map_left]
  refine bind_congr fun elsePart => ?_
  rw [unlined_bind, hideLine_latest]
  refine bind_congr fun elseExit => ?_
  rw [unlined_bind, hideLine_setLatest]
  refine bind_congr fun _ => ?_
  dsimp only
  rw [unlined_bind, mergeVariables_unlined, unlined, bind_map_left]
  refine bind_congr fun decisions => ?_
  simp only [unlined_pure, Fragment.withoutLines_append]

theorem loopIndex_withoutLines (target : Expr) (line : Option Int) :
    loopIndex target.withoutLines none = Except.hideLine (loopIndex target line) := by
  cases target <;> rfl

theorem rangeBound_withoutLine (bound : Bound) (line : Option Int) (os : List Operand) :
    rangeBound bound none os = Except.hideLine (rangeBound bound line os) := by
  unfold rangeBound
  split
  · rfl
  · split <;> rfl
  · rfl

theorem rangeOf_withoutLine (line : Option Int) (os : List Operand) :
    rangeOf none os = Except.hideLine (rangeOf line os) := by
  unfold rangeOf
  split
  · split
    · simp only [Except.hideLine_bind, Except.hideLine_pure, ← rangeBound_withoutLine]
    · rfl
  · rfl

theorem loop_unlined (target iter : Expr) (orelse : List Stmt) (line : Option Int)
    (body : Lowering Fragment) :
    loop target.withoutLines iter.withoutLines (Stmt.withoutLinesOfEach orelse) none
        (unlined body) =
      unlined (loop target iter orelse line body) := by
  cases orelse with
  | cons s rest => rfl
  | nil =>
    change (ofResult (loopIndex target.withoutLines none) >>= fun index => _) =
      unlined (ofResult (loopIndex target line) >>= fun index => _)
    rw [unlined_bind, hideLine_ofResult, ← loopIndex_withoutLines]
    refine bind_congr fun index => ?_
    rw [unlined_bind, hideLine_versioning, ← Expr.operands_withoutLines]
    refine bind_congr fun os => ?_
    rw [unlined_bind, hideLine_ofResult, ← rangeOf_withoutLine]
    refine bind_congr fun range => ?_
    rw [unlined_bind, hideLine_versioning]
    refine bind_congr fun _ => ?_
    rw [unlined_bind, hideLine_modifyScope]
    refine bind_congr fun _ => ?_
    rw [unlined_bind, hideLine_scope]
    refine bind_congr fun outer => ?_
    rw [unlined_bind, hideLine_modifyScope]
    refine bind_congr fun _ => ?_
    rw [unlined_bind, unlined, bind_map_left]
    refine bind_congr fun inner => ?_
    rw [unlined_bind, hideLine_scope]
    refine bind_congr fun s => ?_
    dsimp only
    rw [unlined_bind, hideLine_modifyScope]
    refine bind_congr fun _ => ?_
    rw [unlined_bind, hideLine_scope]
    refine bind_congr fun s => ?_
    rw [unlined_bind, hideLine_next]
    refine bind_congr fun name => ?_
    rw [unlined_pure, Fragment.withoutLines_concat]
    rfl

theorem declaration_withoutLine (s : Scope) (line : Option Int) (x : String) :
    declaration s none x = Except.hideLine (declaration s line x) := by
  unfold declaration
  cases s.domains.get? x <;> rfl

theorem declarations_withoutLine {α : Type} (s : Scope) (line : Option Int) (name : α → String)
    (as : List α) :
    as.mapM (fun a => declaration s none (name a)) =
      Except.hideLine (as.mapM fun a => declaration s line (name a)) := by
  induction as with
  | nil => rfl
  | cons a as ih =>
    simp only [List.mapM_cons, ih, Except.hideLine_bind, Except.hideLine_pure,
      ← declaration_withoutLine]

theorem parameter_withoutLines (line : Option Int) (p : Parameter) :
    parameter none p.withoutLines = hideLine (parameter line p) := by
  unfold parameter
  simp only [hideLine_bind, hideLine_pure, hideLine_ofResult, hideLine_modifyScope,
    hideLine_versioning, Versioning.hideLine_read, ← Expr.annotatedDomain_withoutLines]
  rfl

theorem parameters_withoutLines (line : Option Int) (parameters : List Parameter) :
    (parameters.map Parameter.withoutLines).forM (parameter none) =
      hideLine (parameters.forM (parameter line)) := by
  induction parameters with
  | nil => rfl
  | cons p parameters ih =>
    change (parameter none p.withoutLines >>= fun _ =>
      (parameters.map Parameter.withoutLines).forM (parameter none)) =
        hideLine (parameter line p >>= fun _ => parameters.forM (parameter line))
    rw [hideLine_bind, ih, parameter_withoutLines line]

theorem functionDef_unlined (name : String) (parameters : List Parameter) (line : Option Int)
    (body : Lowering Fragment) :
    functionDef name (parameters.map Parameter.withoutLines) none (unlined body) =
      unlined (functionDef name parameters line body) := by
  unfold functionDef
  rw [unlined_bind, hideLine_claim]
  refine bind_congr fun _ => ?_
  rw [unlined_bind, hideLine_scope]
  refine bind_congr fun outer => ?_
  rw [unlined_bind, hideLine_modifyScope]
  refine bind_congr fun _ => ?_
  rw [unlined_bind, ← parameters_withoutLines]
  refine bind_congr fun _ => ?_
  rw [unlined_bind, unlined, bind_map_left]
  refine bind_congr fun inner => ?_
  rw [unlined_bind, hideLine_scope]
  refine bind_congr fun s => ?_
  rw [unlined_bind, hideLine_ofResult, ← declarations_withoutLine, List.mapM_map]
  refine bind_congr fun input => ?_
  have hvars := declarations_withoutLine s line id s.versions.latest.keys
  simp only [id] at hvars
  rw [unlined_bind, hideLine_ofResult, ← hvars]
  refine bind_congr fun vars => ?_
  rw [unlined_bind, hideLine_modifyScope]
  refine bind_congr fun _ => ?_
  rw [unlined_pure, Fragment.withoutLines_concat]
  rfl

end Lowering

mutual

/-- Without lines, a statement does the same as with them. -/
theorem Stmt.lower_withoutLines (s : Stmt) : s.withoutLines.lower = Lowering.unlined s.lower := by
  cases s with
  | functionDef name parameters body line =>
    rw [withoutLines, lower, lower, lowerBlock_withoutLines body]
    exact Lowering.functionDef_unlined name parameters line _
  | assign targets value line => exact Lowering.assign_unlined targets value line
  | annAssign target typeExpr value line =>
    exact Lowering.annAssign_unlined target typeExpr value line
  | branch test body orelse line =>
    rw [withoutLines, lower, lower, lowerBlock_withoutLines body, lowerBlock_withoutLines orelse]
    exact Lowering.branch_unlined test line _ _
  | loop target iter body orelse line =>
    rw [withoutLines, lower, lower, lowerBlock_withoutLines body]
    exact Lowering.loop_unlined target iter orelse line _
  | expr value line => exact Lowering.effect_unlined value line
  | unsupported nodeType line => rfl

theorem Stmt.lowerBlock_withoutLines (block : List Stmt) :
    lowerBlock (withoutLinesOfEach block) = Lowering.unlined (lowerBlock block) := by
  cases block with
  | nil => rfl
  | cons s rest =>
    rw [withoutLinesOfEach, lowerBlock, lowerBlock, lower_withoutLines s,
      lowerBlock_withoutLines rest]
    exact Lowering.unlined_append _ _

end

end ProgramGraph
