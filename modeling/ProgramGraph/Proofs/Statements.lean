import ProgramGraph.Lowering.Stmt
import ProgramGraph.Proofs.Computation
import ProgramGraph.Proofs.Names
import ProgramGraph.Proofs.Registry

/-! What a statement that is lowered has done, step by step. -/
namespace ProgramGraph

open ProgramGraph.Graph

namespace LoweringState

/-- Go back to an earlier state of what is visible. -/
def withLatest (s : LoweringState) (t : Table Int) : LoweringState :=
  s.withVersions { s.versions with latest := t }

/-- The state in which the body of a loop is lowered. -/
def enterLoop (s : LoweringState) (index : String) : LoweringState :=
  { s with scope := { s.scope.declareDefault index .integer with versions := .fresh (-1) } }

/-- The inputs of a loop, after its body. -/
def loopInputs (s : LoweringState) (index : String) : List String :=
  s.versions.latest.keys.filter (· ≠ index)

def plateBase (s : LoweringState) (index : String) : String :=
  s.owner ++ "__loop_plate__" ++ index

/-- The state in which the parameters of a function are read. -/
def enterFunction (name : String) (r : Registry) : LoweringState := ⟨.ofFunction name, r⟩

end LoweringState

open LoweringState

namespace Lowering

theorem assignTarget_eq_ok {statement : Except Fault String} {line : Option Int}
    {operands : List Operand} {t : Target} {s s' : LoweringState} {f : Fragment}
    (h : assignTarget statement line operands t s = .ok (f, s')) :
    let x := t.reference.name
    let carried := t.carried.toList
    let made := s.registry.next (s.owner ++ "__assign__" ++ x)
    let rendered := made.2.next (s.owner ++ "__lambda__" ++ x)
    ∃ payload,
      f = ⟨[.assign made.1 x (Operand.sources operands carried) payload],
        [.value made.1 t.reference (Operand.inputs operands carried)]⟩ ∧
      ((∃ l, Operand.singleLiteral? operands = some l ∧ payload = .literal l.domain l.text ∧
          s' = ⟨s.scope.declareDefault x l.domain, made.2⟩) ∨
        ∃ body, statement = .ok body ∧ payload = .lambda rendered.1 line ∧
          s' = ⟨s.scope, rendered.2.emit
            (Lambda.source ⟨rendered.1, Operand.parameters operands carried, [body], x⟩)⟩) := by
  obtain ⟨_, _, ⟨⟩, h⟩ := bind_eq_ok.mp h
  obtain ⟨_, _, h₁, h⟩ := bind_eq_ok.mp h
  obtain ⟨rfl, rfl⟩ := next_eq_ok.mp h₁
  dsimp only at h ⊢
  rw [show Operand.parameters operands t.carried.toList =
    (Operand.sources operands t.carried.toList).filterMap Source.variable? from rfl] at h ⊢
  generalize Operand.sources operands t.carried.toList = sources at h ⊢
  generalize Operand.singleLiteral? operands = single at h ⊢
  split at h
  · obtain ⟨_, _, ⟨⟩, h⟩ := bind_eq_ok.mp h
    obtain ⟨rfl, rfl⟩ := pure_eq_ok.mp h
    exact ⟨_, rfl, .inl ⟨_, rfl, rfl, rfl⟩⟩
  · obtain ⟨_, _, h₂, h⟩ := bind_eq_ok.mp h
    obtain ⟨rfl, rfl⟩ := next_eq_ok.mp h₂
    obtain ⟨body, _, h₃, h⟩ := bind_eq_ok.mp h
    obtain ⟨hb, rfl⟩ := ofResult_eq_ok.mp h₃
    obtain ⟨_, _, h₄, h⟩ := bind_eq_ok.mp h
    obtain rfl := emit_eq_ok.mp h₄
    obtain ⟨rfl, rfl⟩ := pure_eq_ok.mp h
    exact ⟨_, rfl, .inr ⟨body, hb, rfl, rfl⟩⟩

section
variable {motive : LoweringState → Fragment → LoweringState → Prop} {s s' : LoweringState}
  {f : Fragment}

/-- What holds of each target and is kept where parts are put together holds of all targets. -/
theorem assignTargets_induction {statement : Except Fault String} {line : Option Int}
    {operands : List Operand} {ts : List Target}
    (h : assignTargets statement line operands ts s = .ok (f, s')) (hnil : ∀ s, motive s ∅ s)
    (happend : ∀ {s s' s'' f g}, motive s f s' → motive s' g s'' → motive s (f ++ g) s'')
    (htarget : ∀ t ∈ ts, ∀ {s s' f}, assignTarget statement line operands t s = .ok (f, s') →
      motive s f s') : motive s f s' := by
  induction ts generalizing s f with
  | nil =>
    obtain ⟨rfl, rfl⟩ := pure_eq_ok.mp h
    exact hnil s
  | cons t ts ih =>
    obtain ⟨first, s₁, hf, h⟩ := bind_eq_ok.mp h
    obtain ⟨others, s₂, ho, h⟩ := bind_eq_ok.mp h
    obtain ⟨rfl, rfl⟩ := pure_eq_ok.mp h
    rw [List.forall_mem_cons] at htarget
    exact happend (htarget.1 hf) (ih ho htarget.2)

/-- What holds of each variable that is merged holds of all of them, in the same way. -/
theorem mergeVariables_induction {test : Reference} {start thenExit elseExit : Table Int}
    {names : List String}
    (h : mergeVariables test start thenExit elseExit names s = .ok (f, s'))
    (hnil : ∀ s, motive s ∅ s)
    (happend : ∀ {s s' s'' f g}, motive s f s' → motive s' g s'' → motive s (f ++ g) s'')
    (hvariable : ∀ x ∈ names, ∀ {s s' f},
      mergeVariable test start thenExit elseExit x s = .ok (f, s') → motive s f s') :
    motive s f s' := by
  induction names generalizing s f with
  | nil =>
    obtain ⟨rfl, rfl⟩ := pure_eq_ok.mp h
    exact hnil s
  | cons x names ih =>
    obtain ⟨first, s₁, hf, h⟩ := bind_eq_ok.mp h
    obtain ⟨others, s₂, ho, h⟩ := bind_eq_ok.mp h
    obtain ⟨rfl, rfl⟩ := pure_eq_ok.mp h
    rw [List.forall_mem_cons] at hvariable
    exact happend (hvariable.1 hf) (ih ho hvariable.2)

end

theorem assign_eq_ok {targets : List Expr} {value : Expr} {line : Option Int}
    {s s' : LoweringState} {f : Fragment} (h : assign targets value line s = .ok (f, s')) :
    ∃ operands v written v',
      value.operands s.versions = .ok (operands, v) ∧
      targets.mapM Expr.target v = .ok (written, v') ∧
      assignTargets (Stmt.assignSource targets value) line operands written (s.withVersions v') =
        .ok (f, s') := by
  obtain ⟨operands, _, h₁, h⟩ := bind_eq_ok.mp h
  obtain ⟨v, ho, rfl⟩ := versioning_eq_ok.mp h₁
  obtain ⟨written, _, h₂, h⟩ := bind_eq_ok.mp h
  obtain ⟨v', hw, rfl⟩ := versioning_eq_ok.mp h₂
  exact ⟨operands, v, written, v', ho, hw, h⟩

theorem mapM_target_singleton {target : Expr} {v v' : Versions} {t : Target}
    (h : target.target v = .ok (t, v')) : [target].mapM Expr.target v = .ok ([t], v') := by
  rw [List.mapM_cons]
  exact bind_eq_ok.mpr ⟨t, v', h, rfl⟩

/-- A declaration without a value leaves no more than the domain of its variable. -/
theorem annAssign_eq_ok {target typeExpr : Expr} {value : Option Expr} {line : Option Int}
    {s s' : LoweringState} {f : Fragment}
    (h : annAssign target typeExpr value line s = .ok (f, s')) :
    ∃ x d, (∃ access own, target = .name x access own) ∧
      ((initialValue? value = none ∧ f = ∅ ∧ s' = { s with scope := s.scope.declare x d }) ∨
        ∃ e operands v written v',
          initialValue? value = some e ∧ e.operands s.versions = .ok (operands, v) ∧
          target.target v = .ok (written, v') ∧
          assignTargets (Stmt.annAssignSource target typeExpr value) line operands [written]
            { s with scope := { s.scope.declare x d with versions := v' } } = .ok (f, s')) := by
  obtain ⟨x, _, h₁, h⟩ := bind_eq_ok.mp h
  obtain ⟨hx, rfl⟩ := ofResult_eq_ok.mp h₁
  obtain ⟨d, _, h₂, h⟩ := bind_eq_ok.mp h
  obtain ⟨hd, rfl⟩ := ofResult_eq_ok.mp h₂
  obtain ⟨_, _, ⟨⟩, h⟩ := bind_eq_ok.mp h
  refine ⟨x, d, ?_, ?_⟩
  · unfold declaredName at hx
    split at hx
    · injection hx with hx
      exact ⟨_, _, by rw [hx]⟩
    · cases hx
  · generalize initialValue? value = initial at h ⊢
    cases initial with
    | none =>
      obtain ⟨rfl, rfl⟩ := pure_eq_ok.mp h
      exact .inl ⟨rfl, rfl, rfl⟩
    | some e =>
      obtain ⟨operands, _, h₃, h⟩ := bind_eq_ok.mp h
      obtain ⟨v, ho, rfl⟩ := versioning_eq_ok.mp h₃
      obtain ⟨written, _, h₄, h⟩ := bind_eq_ok.mp h
      obtain ⟨v', hw, rfl⟩ := versioning_eq_ok.mp h₄
      exact .inr ⟨e, operands, v, written, v', rfl, ho, hw, h⟩

theorem effect_eq_ok {value : Expr} {line : Option Int} {s s' : LoweringState} {f : Fragment}
    (h : effect value line s = .ok (f, s')) :
    ∃ func args keywords own callee arguments v input,
      value = .call func args keywords own ∧
      func.callee own = .ok callee ∧
      Expr.operandsOfEach args s.versions = .ok (arguments, v) ∧
      effectInputs line arguments = .ok input ∧
      f = ⟨[], [.call callee input]⟩ ∧ s' = s.withVersions v := by
  unfold effect at h
  split at h
  · rename_i func args keywords own
    obtain ⟨⟨callee, arguments⟩, _, h₁, h⟩ := bind_eq_ok.mp h
    obtain ⟨v, ho, rfl⟩ := versioning_eq_ok.mp h₁
    obtain ⟨input, _, h₂, h⟩ := bind_eq_ok.mp h
    obtain ⟨hi, rfl⟩ := ofResult_eq_ok.mp h₂
    obtain ⟨rfl, rfl⟩ := pure_eq_ok.mp h
    obtain ⟨_, _, h₃, ho⟩ := bind_eq_ok.mp ho
    obtain ⟨-, rfl⟩ := Versioning.ofResult_eq_ok.mp h₃
    obtain ⟨_, _, h₄, ho⟩ := bind_eq_ok.mp ho
    obtain ⟨hc, rfl⟩ := Versioning.ofResult_eq_ok.mp h₄
    obtain ⟨_, _, ha, h₅⟩ := bind_eq_ok.mp ho
    obtain ⟨h₆, rfl⟩ := pure_eq_ok.mp h₅
    obtain ⟨rfl, rfl⟩ := Prod.mk.inj h₆
    exact ⟨func, args, keywords, own, _, _, _, input, rfl, hc, ha, hi, rfl, rfl⟩
  · cases h

/-- A call for its effect leaves one record, and reads at most. -/
theorem effect_eq_call {value : Expr} {line : Option Int} {s s' : LoweringState} {f : Fragment}
    (h : effect value line s = .ok (f, s')) :
    ∃ callee input v, f = ⟨[], [.call callee input]⟩ ∧ s' = s.withVersions v := by
  obtain ⟨_, _, _, _, callee, _, v, input, -, -, -, -, hf, hs⟩ := effect_eq_ok h
  exact ⟨callee, input, v, hf, hs⟩

theorem condition_eq_ok {test : Expr} {line : Option Int} {s s' : LoweringState} {f : Fragment}
    {output : Reference} (h : condition test line s = .ok ((f, output), s')) :
    let taken := s.registry.take (s.owner ++ "#condition")
    let x := conditionName taken.1
    let named := taken.2.next (s.owner ++ "__condition__" ++ x)
    let rendered := named.2.next (s.owner ++ "__lambda__" ++ x)
    ∃ operands v text,
      test.operands s.versions = .ok (operands, v) ∧ test.source false = .ok text ∧
      output = ⟨x, 0⟩ ∧
      f = ⟨[.assign named.1 x (Operand.sources operands []) (.lambda rendered.1 line)],
        [.value named.1 ⟨x, 0⟩ (Operand.inputs operands [])]⟩ ∧
      s' = ⟨(s.withVersions v).scope.addCondition x, rendered.2.emit
        (Lambda.source ⟨rendered.1, Operand.parameters operands [], [], text⟩)⟩ := by
  obtain ⟨_, _, ⟨⟩, h⟩ := bind_eq_ok.mp h
  obtain ⟨operands, _, h₁, h⟩ := bind_eq_ok.mp h
  obtain ⟨v, ho, rfl⟩ := versioning_eq_ok.mp h₁
  obtain ⟨n, _, h₂, h⟩ := bind_eq_ok.mp h
  obtain ⟨rfl, rfl⟩ := take_eq_ok.mp h₂
  obtain ⟨_, _, ⟨⟩, h⟩ := bind_eq_ok.mp h
  obtain ⟨name, _, h₃, h⟩ := bind_eq_ok.mp h
  obtain ⟨rfl, rfl⟩ := next_eq_ok.mp h₃
  obtain ⟨lambda, _, h₄, h⟩ := bind_eq_ok.mp h
  obtain ⟨rfl, rfl⟩ := next_eq_ok.mp h₄
  obtain ⟨text, _, h₅, h⟩ := bind_eq_ok.mp h
  obtain ⟨htext, rfl⟩ := ofResult_eq_ok.mp h₅
  obtain ⟨_, _, h₆, h⟩ := bind_eq_ok.mp h
  obtain rfl := emit_eq_ok.mp h₆
  obtain ⟨h₇, rfl⟩ := pure_eq_ok.mp h
  obtain ⟨rfl, rfl⟩ := Prod.mk.inj h₇
  exact ⟨operands, v, text, ho, htext, rfl, rfl, rfl⟩

/-- A variable is a condition, or neither branch wrote it, or there is a decision on it. -/
theorem mergeVariable_eq_ok {test : Reference} {start thenExit elseExit : Table Int} {x : String}
    {s s' : LoweringState} {f : Fragment}
    (h : mergeVariable test start thenExit elseExit x s = .ok (f, s')) :
    let entry := (start.get? x).getD s.versions.baseline
    let both := candidates? entry (thenExit.get? x) (elseExit.get? x)
    let made := s.registry.next (s.owner ++ "__decision__" ++ x)
    (x ∈ s.scope.conditions ∧ f = ∅ ∧ s' = s.withVersions (s.versions.pin x 0)) ∨
    (x ∉ s.scope.conditions ∧ both = none ∧ f = ∅ ∧
      s' = if (start.get? x).isNone then s.withVersions (s.versions.pin x entry) else s) ∨
    (x ∉ s.scope.conditions ∧ ∃ a b, both = some (a, b) ∧
      f = ⟨[.decision made.1 x ([test, ⟨x, a⟩, ⟨x, b⟩].map Source.versioned)],
        [.value made.1 ⟨x, s.versions.upcoming x⟩ ([test, ⟨x, a⟩, ⟨x, b⟩].map Input.ref)]⟩ ∧
      s' = { s.withVersions (s.versions.write x).2 with registry := made.2 }) := by
  obtain ⟨_, _, ⟨⟩, h⟩ := bind_eq_ok.mp h
  dsimp only
  split at h
  · rename_i hc
    obtain ⟨_, _, h₁, h⟩ := bind_eq_ok.mp h
    obtain ⟨_, ⟨⟩, rfl⟩ := versioning_eq_ok.mp h₁
    obtain ⟨rfl, rfl⟩ := pure_eq_ok.mp h
    exact .inl ⟨by simpa using hc, rfl, rfl⟩
  · rename_i hc
    refine .inr ?_
    dsimp only at h
    generalize hb : candidates? _ _ _ = both at h
    cases both with
    | none =>
      refine .inl ⟨by simpa using hc, hb, ?_⟩
      dsimp only at h
      split at h
      · obtain ⟨_, _, h₁, h⟩ := bind_eq_ok.mp h
        obtain ⟨_, ⟨⟩, rfl⟩ := versioning_eq_ok.mp h₁
        obtain ⟨rfl, rfl⟩ := pure_eq_ok.mp h
        exact ⟨rfl, by rw [if_pos ‹_›]; rfl⟩
      · obtain ⟨rfl, rfl⟩ := pure_eq_ok.mp h
        exact ⟨rfl, by rw [if_neg ‹_›]⟩
    | some ab =>
      obtain ⟨a, b⟩ := ab
      refine .inr ⟨by simpa using hc, a, b, ?_⟩
      obtain ⟨_, _, h₁, h⟩ := bind_eq_ok.mp h
      obtain ⟨_, hw, rfl⟩ := versioning_eq_ok.mp h₁
      obtain ⟨rfl, rfl⟩ := Versioning.write_eq_ok.mp hw
      obtain ⟨name, _, h₂, h⟩ := bind_eq_ok.mp h
      obtain ⟨rfl, rfl⟩ := next_eq_ok.mp h₂
      obtain ⟨rfl, rfl⟩ := pure_eq_ok.mp h
      exact ⟨hb, rfl, rfl⟩

private theorem declareDefault_versions (s : Scope) (v : Versions) (x : String) (d : Domain) :
    ({ s with versions := v } : Scope).declareDefault x d =
      { s.declareDefault x d with versions := v } := by
  unfold Scope.declareDefault
  split <;> rfl

theorem branch_eq_ok {test : Expr} {line : Option Int} {thenBlock elseBlock : Lowering Fragment}
    {s s₄ : LoweringState} {f : Fragment}
    (h : Lowering.branch test line thenBlock elseBlock s = .ok (f, s₄)) :
    ∃ tested condition s₁ thenPart s₂ elsePart s₃ decisions,
      Lowering.condition test line s = .ok ((tested, condition), s₁) ∧
      thenBlock s₁ = .ok (thenPart, s₂) ∧
      elseBlock (s₂.withLatest s₁.versions.latest) = .ok (elsePart, s₃) ∧
      mergeVariables condition s₁.versions.latest s₂.versions.latest s₃.versions.latest
        (distinct (s₁.versions.latest.keys ++ s₂.versions.latest.keys ++ s₃.versions.latest.keys))
        (s₃.withLatest s₁.versions.latest) = .ok (decisions, s₄) ∧
      f = tested ++ thenPart ++ elsePart ++ decisions := by
  obtain ⟨⟨tested, condition⟩, s₁, hc, h⟩ := bind_eq_ok.mp h
  obtain ⟨start, _, ⟨⟩, h⟩ := bind_eq_ok.mp h
  obtain ⟨thenPart, s₂, ht, h⟩ := bind_eq_ok.mp h
  obtain ⟨thenExit, _, ⟨⟩, h⟩ := bind_eq_ok.mp h
  obtain ⟨_, _, ⟨⟩, h⟩ := bind_eq_ok.mp h
  obtain ⟨elsePart, s₃, he, h⟩ := bind_eq_ok.mp h
  obtain ⟨elseExit, _, ⟨⟩, h⟩ := bind_eq_ok.mp h
  obtain ⟨_, _, ⟨⟩, h⟩ := bind_eq_ok.mp h
  obtain ⟨decisions, s₄, hd, h⟩ := bind_eq_ok.mp h
  obtain ⟨rfl, rfl⟩ := pure_eq_ok.mp h
  exact ⟨tested, condition, s₁, thenPart, s₂, elsePart, s₃, decisions, hc, ht, he, hd, rfl⟩

theorem loop_eq_ok {target iter : Expr} {orelse : List Stmt} {line : Option Int}
    {body : Lowering Fragment} {s s₃ : LoweringState} {f : Fragment}
    (h : Lowering.loop target iter orelse line body s = .ok (f, s₃)) :
    orelse = [] ∧ ∃ index os v range inner s₂,
      loopIndex target line = .ok index ∧ iter.operands s.versions = .ok (os, v) ∧
      rangeOf line os = .ok range ∧ body (s.enterLoop index) = .ok (inner, s₂) ∧
      s₃ = { s₂.withVersions (v.write index).2 with
        registry := (s₂.registry.next (s₂.plateBase index)).2 } ∧
      f = ⟨inner.functions ++ [.loopPlate (s₂.registry.next (s₂.plateBase index)).1
          (s₂.loopInputs index) index range inner.records],
        [.loop (s₂.registry.next (s₂.plateBase index)).1 (s₂.loopInputs index)]⟩ := by
  cases orelse with
  | cons s rest => cases h
  | nil =>
    refine ⟨rfl, ?_⟩
    obtain ⟨index, _, h₁, h⟩ := bind_eq_ok.mp h
    obtain ⟨hi, rfl⟩ := ofResult_eq_ok.mp h₁
    obtain ⟨os, _, h₂, h⟩ := bind_eq_ok.mp h
    obtain ⟨v, ho, rfl⟩ := versioning_eq_ok.mp h₂
    obtain ⟨range, _, h₃, h⟩ := bind_eq_ok.mp h
    obtain ⟨hr, rfl⟩ := ofResult_eq_ok.mp h₃
    obtain ⟨_, _, h₄, h⟩ := bind_eq_ok.mp h
    obtain ⟨_, hw, rfl⟩ := versioning_eq_ok.mp h₄
    obtain ⟨rfl, rfl⟩ := Versioning.write_eq_ok.mp hw
    obtain ⟨_, _, ⟨⟩, h⟩ := bind_eq_ok.mp h
    obtain ⟨_, _, ⟨⟩, h⟩ := bind_eq_ok.mp h
    obtain ⟨_, _, ⟨⟩, h⟩ := bind_eq_ok.mp h
    obtain ⟨inner, s₂, hb, h⟩ := bind_eq_ok.mp h
    obtain ⟨_, _, ⟨⟩, h⟩ := bind_eq_ok.mp h
    obtain ⟨_, _, ⟨⟩, h⟩ := bind_eq_ok.mp h
    obtain ⟨_, _, ⟨⟩, h⟩ := bind_eq_ok.mp h
    obtain ⟨name, _, h₅, h⟩ := bind_eq_ok.mp h
    obtain ⟨rfl, rfl⟩ := next_eq_ok.mp h₅
    obtain ⟨rfl, rfl⟩ := pure_eq_ok.mp h
    change body ⟨{ Scope.declareDefault { s.scope with versions := (v.write index).2 } index
      .integer with versions := .fresh (-1) }, s.registry⟩ = _ at hb
    simp only [withVersions, LoweringState.versions, declareDefault_versions] at hb ⊢
    exact ⟨index, os, v, range, inner, s₂, hi, ho, hr, hb, rfl, rfl⟩

theorem functionDef_eq_ok {name : String} {parameters : List Parameter} {line : Option Int}
    {body : Lowering Fragment} {s s₃ : LoweringState} {f : Fragment}
    (h : Lowering.functionDef name parameters line body s = .ok (f, s₃)) :
    ∃ r s₁ inner s₂ input vars,
      s.registry.claim? name = some r ∧
      parameters.forM (parameter line) (enterFunction name r) = .ok ((), s₁) ∧
      body s₁ = .ok (inner, s₂) ∧
      (parameters.mapM fun p => declaration s₂.scope line p.name) = .ok input ∧
      s₂.versions.latest.keys.mapM (declaration s₂.scope line) = .ok vars ∧
      s₃ = ⟨s.scope, s₂.registry⟩ ∧
      f = ⟨inner.functions ++ [.container name input vars inner.records], []⟩ := by
  obtain ⟨_, _, h₁, h⟩ := bind_eq_ok.mp h
  obtain ⟨r, hc, rfl⟩ := claim_eq_ok.mp h₁
  obtain ⟨_, _, ⟨⟩, h⟩ := bind_eq_ok.mp h
  obtain ⟨_, _, ⟨⟩, h⟩ := bind_eq_ok.mp h
  obtain ⟨_, s₁, hp, h⟩ := bind_eq_ok.mp h
  obtain ⟨inner, s₂, hb, h⟩ := bind_eq_ok.mp h
  obtain ⟨_, _, ⟨⟩, h⟩ := bind_eq_ok.mp h
  obtain ⟨input, _, h₂, h⟩ := bind_eq_ok.mp h
  obtain ⟨hi, rfl⟩ := ofResult_eq_ok.mp h₂
  obtain ⟨vars, _, h₃, h⟩ := bind_eq_ok.mp h
  obtain ⟨hv, rfl⟩ := ofResult_eq_ok.mp h₃
  obtain ⟨_, _, ⟨⟩, h⟩ := bind_eq_ok.mp h
  obtain ⟨rfl, rfl⟩ := pure_eq_ok.mp h
  exact ⟨r, s₁, inner, s₂, input, vars, hc, hp, hb, hi, hv, rfl, rfl⟩

/-- A parameter is declared, and read at its entry version. -/
theorem parameter_eq_ok {p : Parameter} {line : Option Int} {s s' : LoweringState}
    (h : parameter line p s = .ok ((), s')) :
    ∃ d, s' = { s with scope :=
      { s.scope.declare p.name d with versions := (s.versions.read p.name).2 } } := by
  obtain ⟨d, _, h₁, h⟩ := bind_eq_ok.mp h
  obtain ⟨-, rfl⟩ := ofResult_eq_ok.mp h₁
  obtain ⟨_, _, ⟨⟩, h⟩ := bind_eq_ok.mp h
  obtain ⟨_, _, h₂, h⟩ := bind_eq_ok.mp h
  obtain ⟨v, hv, rfl⟩ := versioning_eq_ok.mp h₂
  obtain ⟨-, rfl⟩ := Versioning.read_eq_ok.mp hv
  obtain ⟨-, rfl⟩ := pure_eq_ok.mp h
  exact ⟨d, rfl⟩

/-- What holds at the start of a function and is kept by each parameter holds behind them. -/
theorem parameters_induction {motive : LoweringState → Prop} {parameters : List Parameter}
    {line : Option Int} {s s' : LoweringState}
    (h : parameters.forM (parameter line) s = .ok ((), s')) (hs : motive s)
    (hstep : ∀ p ∈ parameters, ∀ d t, motive t → motive { t with scope :=
      { t.scope.declare p.name d with versions := (t.versions.read p.name).2 } }) :
    motive s' := by
  induction parameters generalizing s with
  | nil =>
    obtain ⟨-, rfl⟩ := pure_eq_ok.mp h
    exact hs
  | cons p parameters ih =>
    obtain ⟨_, s₁, hp, h⟩ := bind_eq_ok.mp h
    obtain ⟨d, rfl⟩ := parameter_eq_ok hp
    have hfirst := hstep p List.mem_cons_self d s hs
    exact ih h hfirst fun q hq => hstep q (List.mem_cons_of_mem _ hq)

end Lowering

end ProgramGraph
