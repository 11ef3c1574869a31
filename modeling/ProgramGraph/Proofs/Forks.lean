import ProgramGraph.Lowering.Session
import ProgramGraph.Proofs.Retention

/-! Forked scopes: to lower a branch or the body of a loop in a fork of the scope, and to absorb the
tables of the fork behind it, is to lower it in the scope itself. -/
namespace ProgramGraph

open ProgramGraph.Graph Lowering LoweringState

namespace Lowering

/-- Run in a fork of the scope. The scope stays as it was, but for conditions that both share. -/
def inFork {α : Type} (o : ForkOptions) (m : Lowering α) : Lowering (α × Scope) := fun s =>
  match m { s with scope := s.scope.fork o } with
  | .ok (a, t) =>
    let scope := if o.conditions.isSome then s.scope
      else { s.scope with conditions := t.scope.conditions }
    .ok ((a, t.scope), ⟨scope, t.registry⟩)
  | .error f => .error f

/-- Each branch in a fork of its own. The second one goes on with the tables of the first one. -/
def branchForked (test : Expr) (line : Option Int) (thenBlock elseBlock : Lowering Fragment) :
    Lowering Fragment := do
  let (tested, output) ← condition test line
  let start ← latest
  let (thenPart, thenScope) ← inFork {} thenBlock
  let (elsePart, elseScope) ←
    inFork { next := thenScope.versions.next, types := thenScope.domains } elseBlock
  modifyScope (·.absorb elseScope .next)
  modifyScope (·.absorb elseScope .types)
  let thenExit := thenScope.versions.latest
  let elseExit := elseScope.versions.latest
  let names := distinct (start.keys ++ thenExit.keys ++ elseExit.keys)
  let decisions ← mergeVariables output start thenExit elseExit names
  return tested ++ thenPart ++ elsePart ++ decisions

/-- The body in a fork with versions of its own, of which only the domains come back. -/
def loopForked (target iter : Expr) (orelse : List Stmt) (line : Option Int)
    (body : Lowering Fragment) : Lowering Fragment := do
  unless orelse.isEmpty do refuse .loopElse line
  let index ← ofResult (loopIndex target line)
  let range ← ofResult (rangeOf line (← versioning iter.operands))
  let _ ← versioning (.write index)
  modifyScope (·.declareDefault index .integer)
  let (inner, loopScope) ← inFork { last := some ∅, next := some ∅, baseline := some (-1) } body
  modifyScope (·.absorb loopScope .types)
  let inputs := loopScope.versions.latest.keys.filter (· ≠ index)
  let name ← next ((← scope).name ++ "__loop_plate__" ++ index)
  return ⟨inner.functions ++ [.loopPlate name inputs index range inner.records],
    [.loop name inputs]⟩

/-- Parameters and body in a fork that shares nothing with the scope. -/
def functionDefForked (name : String) (parameters : List Parameter) (line : Option Int)
    (body : Lowering Fragment) : Lowering Fragment := do
  claim name line
  let isolated : ForkOptions :=
    { last := some ∅, next := some ∅, types := some ∅, conditions := some [], baseline := some 0
      owner := some name }
  let made ← inFork isolated do
    parameters.forM (parameter line)
    let inner ← body
    let s ← scope
    let input ← ofResult (parameters.mapM fun p => declaration s line p.name)
    let vars ← ofResult (s.versions.latest.keys.mapM (declaration s line))
    return ⟨inner.functions ++ [.container name input vars inner.records], []⟩
  return made.1

end Lowering

mutual

/-- Lowering with a fork for each nested block. -/
def Stmt.lowerForked (s : Stmt) : Lowering Fragment :=
  match s with
  | .functionDef name parameters body line =>
    functionDefForked name parameters line (lowerBlockForked body)
  | .assign targets value line => Lowering.assign targets value line
  | .annAssign target typeExpr value line => Lowering.annAssign target typeExpr value line
  | .branch test body orelse line =>
    branchForked test line (lowerBlockForked body) (lowerBlockForked orelse)
  | .loop target iter body orelse line => loopForked target iter orelse line (lowerBlockForked body)
  | .expr value line => effect value line
  | .unsupported nodeType line => refuse (.unhandled nodeType) line

def Stmt.lowerBlockForked (block : List Stmt) : Lowering Fragment :=
  match block with
  | [] => return ∅
  | s :: rest => do
    let first ← s.lowerForked
    return first ++ (← lowerBlockForked rest)

end

/-- The next versions only get new keys behind the others, over the same baseline. -/
structure Versions.Grows (v v' : Versions) : Prop where
  baseline : v'.baseline = v.baseline
  next : v.next.keys <+: v'.next.keys

namespace Versions
variable {v v' v'' : Versions}

theorem Grows.refl (v : Versions) : v.Grows v := ⟨rfl, List.prefix_rfl⟩

theorem Grows.trans (h : v.Grows v') (h' : v'.Grows v'') : v.Grows v'' :=
  ⟨h'.baseline.trans h.baseline, h.next.trans h'.next⟩

theorem Reads.grows {xs : List String} (h : v.Reads xs v') : v.Grows v' :=
  ⟨h.baseline, h.next ▸ List.prefix_rfl⟩

theorem grows_pin (v : Versions) (x : String) (n : Int) : v.Grows (v.pin x n) :=
  ⟨rfl, List.prefix_rfl⟩

theorem grows_write (v : Versions) (x : String) : v.Grows (v.write x).2 :=
  ⟨rfl, v.next.keys_prefix_insert x _⟩

theorem Accesses.grows {us : List (String × Access)} (h : v.Accesses us v') : v.Grows v' := by
  induction h with
  | nil => exact .refl _
  | read v x => exact (Reads.read v x).grows
  | write v x => exact v.grows_write x
  | append _ _ ih ih' => exact ih.trans ih'

end Versions

/-- The domains do likewise, and the scope keeps its owner. -/
structure Scope.Grows (s s' : Scope) : Prop where
  versions : s.versions.Grows s'.versions
  domains : s.domains.keys <+: s'.domains.keys
  owner : s'.owner = s.owner

namespace Scope
variable {s s' s'' : Scope}

theorem Grows.refl (s : Scope) : s.Grows s := ⟨.refl _, List.prefix_rfl, rfl⟩

theorem Grows.trans (h : s.Grows s') (h' : s'.Grows s'') : s.Grows s'' :=
  ⟨h.versions.trans h'.versions, h.domains.trans h'.domains, h'.owner.trans h.owner⟩

theorem grows_versions (s : Scope) {v : Versions} (h : s.versions.Grows v) :
    s.Grows { s with versions := v } := ⟨h, List.prefix_rfl, rfl⟩

theorem grows_declare (s : Scope) (x : String) (d : Domain) : s.Grows (s.declare x d) :=
  ⟨.refl _, s.domains.keys_prefix_insert x d, rfl⟩

theorem grows_declareDefault (s : Scope) (x : String) (d : Domain) :
    s.Grows (s.declareDefault x d) := by
  unfold declareDefault
  split
  · exact .refl s
  · exact s.grows_declare x d

theorem grows_addCondition (s : Scope) (x : String) : s.Grows (s.addCondition x) :=
  ⟨s.versions.grows_pin x 0, s.domains.keys_prefix_insert x .boolean, rfl⟩

end Scope

namespace Lowering
variable {s s' : LoweringState} {line : Option Int} {f : Fragment}

theorem target_grows {e : Expr} {v v' : Versions} {t : Target} (h : e.target v = .ok (t, v')) :
    v.Grows v' := by
  obtain ⟨x, w, -, -, hr, rfl, -⟩ := Expr.target_eq_ok h
  exact hr.grows.trans (w.grows_write x)

theorem targets_grow {targets : List Expr} {v v' : Versions} {written : List Target}
    (h : targets.mapM Expr.target v = .ok (written, v')) : v.Grows v' := by
  induction targets generalizing v written with
  | nil =>
    obtain ⟨-, rfl⟩ := pure_eq_ok.mp h
    exact .refl v
  | cons e rest ih =>
    rw [List.mapM_cons] at h
    obtain ⟨t, w, ht, h⟩ := bind_eq_ok.mp h
    obtain ⟨ts, w', hts, h⟩ := bind_eq_ok.mp h
    obtain ⟨-, rfl⟩ := pure_eq_ok.mp h
    exact (target_grows ht).trans (ih hts)

theorem assignTargets_grows {statement : Except Fault String} {operands : List Operand}
    {ts : List Target} (h : assignTargets statement line operands ts s = .ok (f, s')) :
    s.scope.Grows s'.scope := by
  refine assignTargets_induction (motive := fun s _ s' => s.scope.Grows s'.scope) h
    (fun s => .refl s.scope) .trans fun t _ s s' f h => ?_
  obtain ⟨payload, -, ⟨l, -, -, rfl⟩ | ⟨body, -, -, rfl⟩⟩ := assignTarget_eq_ok h
  · exact s.scope.grows_declareDefault _ _
  · exact .refl s.scope

theorem assign_grows {targets : List Expr} {value : Expr}
    (h : assign targets value line s = .ok (f, s')) : s.scope.Grows s'.scope := by
  obtain ⟨operands, v, written, v', ho, hw, hf⟩ := assign_eq_ok h
  have hversions := (value.operands_accesses ho).1.grows.trans (targets_grow hw)
  exact (s.scope.grows_versions hversions).trans (assignTargets_grows hf)

theorem annAssign_grows {target typeExpr : Expr} {value : Option Expr}
    (h : annAssign target typeExpr value line s = .ok (f, s')) : s.scope.Grows s'.scope := by
  obtain ⟨x, d, -, ⟨-, -, rfl⟩ | ⟨e, operands, v, written, v', -, ho, ht, hf⟩⟩ := annAssign_eq_ok h
  · exact s.scope.grows_declare x d
  · have hversions := (e.operands_accesses ho).1.grows.trans (target_grows ht)
    have hdeclared := (s.scope.grows_declare x d).trans
      ((s.scope.declare x d).grows_versions hversions)
    exact hdeclared.trans (assignTargets_grows hf)

theorem effect_grows {value : Expr} (h : effect value line s = .ok (f, s')) :
    s.scope.Grows s'.scope := by
  obtain ⟨func, args, keywords, own, callee, arguments, v, input, rfl, -, ho, -, rfl, rfl⟩ :=
    effect_eq_ok h
  exact s.scope.grows_versions (Expr.operandsOfEach_accesses args ho).1.grows

theorem condition_grows {test : Expr} {output : Reference}
    (h : condition test line s = .ok ((f, output), s')) : s.scope.Grows s'.scope := by
  obtain ⟨operands, v, text, ho, -, rfl, rfl, rfl⟩ := condition_eq_ok h
  have hread := s.scope.grows_versions (test.operands_accesses ho).1.grows
  exact hread.trans (Scope.grows_addCondition _ _)

theorem mergeVariables_grows {test : Reference} {start thenExit elseExit : Table Int}
    {names : List String}
    (h : mergeVariables test start thenExit elseExit names s = .ok (f, s')) :
    s.scope.Grows s'.scope := by
  refine mergeVariables_induction (motive := fun s _ s' => s.scope.Grows s'.scope) h
    (fun s => .refl s.scope) .trans fun x _ s s' f h => ?_
  rcases mergeVariable_eq_ok h with ⟨-, -, rfl⟩ | ⟨-, -, -, rfl⟩ | ⟨-, a, b, -, -, rfl⟩
  · exact s.scope.grows_versions (s.versions.grows_pin x 0)
  · split
    · exact s.scope.grows_versions (s.versions.grows_pin x _)
    · exact .refl s.scope
  · exact s.scope.grows_versions (s.versions.grows_write x)

end Lowering

/-- A block lets its scope grow. -/
theorem Lowers.grows {block : List Stmt} {s s' : LoweringState} {L : Layout}
    (h : Lowers block s L s') : s.scope.Grows s'.scope := by
  induction h with
  | nil => exact .refl _
  | assign hmade _ ih => exact (assign_grows hmade).trans ih
  | annAssign hmade _ ih => exact (annAssign_grows hmade).trans ih
  | effect hmade _ ih => exact (effect_grows hmade).trans ih
  | @branch test body orelse line rest s s₁ s₂ s₃ s₄ s₅ tested condition T E decisions L
      htest _ _ hmerge _ ihT ihE ih =>
    -- The visible versions go back to those at the start, which nothing here depends on.
    have helse : s₂.versions.Grows s₃.versions := ⟨ihE.versions.baseline, ihE.versions.next⟩
    have hboth : s₁.scope.Grows s₃.scope := ihT.trans ⟨helse, ihE.domains, ihE.owner⟩
    have hback : s₁.scope.Grows (s₃.withLatest s₁.versions.latest).scope :=
      ⟨⟨hboth.versions.baseline, hboth.versions.next⟩, hboth.domains, hboth.owner⟩
    have hbranches := (condition_grows htest).trans (hback.trans (mergeVariables_grows hmerge))
    exact hbranches.trans ih
  | @loop target iter body line rest s s₂ s₃ v index os range B L _ hiter _ _ _ ihB ih =>
    have hheader := (iter.operands_accesses hiter).1.grows.trans (v.grows_write index)
    have hdeclared := s.scope.grows_declareDefault index .integer
    have hloop : s.scope.Grows { s₂.scope with versions := (v.write index).2 } :=
      ⟨hheader, hdeclared.domains.trans ihB.domains, ihB.owner.trans hdeclared.owner⟩
    exact hloop.trans ih
  | definition _ _ _ _ _ _ _ ih => exact ih

theorem Stmt.lowerBlock_grows {block : List Stmt} {s s' : LoweringState} {f : Fragment}
    (h : Stmt.lowerBlock block s = .ok (f, s')) : s.scope.Grows s'.scope := by
  obtain ⟨L, hL, -⟩ := Stmt.lowers_of_lowerBlock block h
  exact hL.grows

namespace Lowering

/-- A part of a program that lets the scope grow. -/
def Steady (m : Lowering Fragment) : Prop :=
  ∀ {s s' : LoweringState} {f : Fragment}, m s = .ok (f, s') → s.scope.Grows s'.scope

section
variable {α β : Type} {s : LoweringState}

theorem bind_apply (m : Lowering α) (f : α → Lowering β) :
    (m >>= f) s = (m s).bind fun p => f p.1 p.2 := rfl

theorem latest_bind (f : Table Int → Lowering β) : (latest >>= f) s = f s.versions.latest s := rfl

theorem setLatest_bind (t : Table Int) (f : Unit → Lowering β) :
    (setLatest t >>= f) s = f () (s.withLatest t) := rfl

theorem modifyScope_bind (g : Scope → Scope) (f : Unit → Lowering β) :
    (modifyScope g >>= f) s = f () { s with scope := g s.scope } := rfl

theorem scope_bind (f : Scope → Lowering β) : (scope >>= f) s = f s.scope s := rfl

theorem bind_of_error {m : Lowering α} {e : Fault} (h : m s = .error e) (f : α → Lowering β) :
    (m >>= f) s = .error e := by
  rw [bind_apply, h]
  rfl

theorem bind_of_ok {m : Lowering α} {a : α} {t : LoweringState} (h : m s = .ok (a, t))
    (f : α → Lowering β) : (m >>= f) s = f a t := by
  rw [bind_apply, h]
  rfl

variable {m : Lowering α} {o : ForkOptions}

theorem inFork_of_error {e : Fault} (h : m { s with scope := s.scope.fork o } = .error e) :
    inFork o m s = .error e := by
  rw [inFork, h]

/-- A fork that has its conditions from the scope gives new ones back to it. -/
theorem inFork_of_ok {a : α} {t : LoweringState} (ho : o.conditions = none)
    (h : m { s with scope := s.scope.fork o } = .ok (a, t)) : inFork o m s =
      .ok ((a, t.scope), ⟨{ s.scope with conditions := t.scope.conditions }, t.registry⟩) := by
  rw [inFork, h, ho]
  rfl

/-- A fork with conditions of its own leaves the scope as it was. -/
theorem inFork_isolated_bind (ho : o.conditions.isSome = true) (f : α → Lowering β) :
    (inFork o m >>= fun p => f p.1) s =
      (m >>= fun a => modifyScope (fun _ => s.scope) >>= fun _ => f a)
        { s with scope := s.scope.fork o } := by
  cases hm : m { s with scope := s.scope.fork o } with
  | error e => rw [bind_of_error (inFork_of_error hm), bind_of_error hm]
  | ok p =>
    have hfork : inFork o m s = .ok ((p.1, p.2.scope), ⟨s.scope, p.2.registry⟩) := by
      rw [inFork, hm, ho]
      rfl
    rw [bind_of_ok hfork, bind_of_ok hm, modifyScope_bind]

end
end Lowering

namespace Scope

theorem fork_none (s : Scope) : s.fork {} = s := by
  obtain ⟨versions, domains, conditions, owner⟩ := s
  rfl

/-- The scope in which the body of a loop is lowered. -/
theorem fork_fresh (s : Scope) (baseline : Int) :
    s.fork { last := some ∅, next := some ∅, baseline := some baseline } =
      { s with versions := .fresh baseline } := by
  obtain ⟨versions, domains, conditions, owner⟩ := s
  rfl

/-- Domains that came to a fork come back. -/
theorem absorb_types {s t : Scope} (howner : t.owner = s.owner)
    (h : s.domains.keys <+: t.domains.keys) :
    { s with conditions := t.conditions }.absorb t .types = { t with versions := s.versions } := by
  obtain ⟨versions, domains, conditions, owner⟩ := t
  simpa [absorb, Table.absorb_of_prefix_keys h] using howner.symm

section
variable {s t : Scope} (h : s.Grows t)
include h

/-- The fork for the second branch is where the first one ended, but for what is visible. -/
theorem Grows.fork_next_types : { s with conditions := t.conditions }.fork
      { next := t.versions.next, types := t.domains } =
    { t with versions := { t.versions with latest := s.versions.latest } } := by
  obtain ⟨⟨latest, next, baseline⟩, domains, conditions, owner⟩ := t
  simpa [fork] using ⟨h.versions.baseline.symm, h.owner.symm⟩

/-- To absorb what is left of a fork is to be where it ended, but for what is visible. -/
theorem Grows.absorb_next_types :
    ({ s with conditions := t.conditions }.absorb t .next).absorb t .types =
      { t with versions := { t.versions with latest := s.versions.latest } } := by
  obtain ⟨⟨latest, next, baseline⟩, domains, conditions, owner⟩ := t
  have hnext := Table.absorb_of_prefix_keys h.versions.next
  have hdomains := Table.absorb_of_prefix_keys h.domains
  simpa [absorb, hnext, hdomains] using ⟨h.versions.baseline.symm, h.owner.symm⟩

end
end Scope

namespace Lowering
variable {test : Expr} {line : Option Int} {thenBlock elseBlock body : Lowering Fragment}

/-- Branches that let the scope grow may be lowered in forks of it. -/
theorem branchForked_eq (hthen : Steady thenBlock) (helse : Steady elseBlock) :
    branchForked test line thenBlock elseBlock = branch test line thenBlock elseBlock := by
  refine bind_congr fun ⟨tested, output⟩ => funext fun s => ?_
  simp only [latest_bind]
  have hfork : thenBlock { s with scope := s.scope.fork {} } = thenBlock s := by
    rw [Scope.fork_none]
  cases ht : thenBlock s with
  | error e =>
    rw [bind_of_error ht]
    exact bind_of_error (inFork_of_error (hfork.trans ht)) _
  | ok p =>
    obtain ⟨thenPart, s₂⟩ := p
    have hfirst := hthen ht
    have hnext := congrArg (fun scope => elseBlock ⟨scope, s₂.registry⟩) hfirst.fork_next_types
    rw [bind_of_ok ht, bind_of_ok (inFork_of_ok rfl (hfork.trans ht))]
    simp only [latest_bind, setLatest_bind]
    cases he : elseBlock (s₂.withLatest s.versions.latest) with
    | error e =>
      rw [bind_of_error he]
      exact bind_of_error (inFork_of_error (hnext.trans he)) _
    | ok p =>
      obtain ⟨elsePart, s₃⟩ := p
      have hsecond := helse he
      have hbetween : s₂.scope.Grows s₃.scope :=
        ⟨⟨hsecond.versions.baseline, hsecond.versions.next⟩, hsecond.domains, hsecond.owner⟩
      rw [bind_of_ok he, bind_of_ok (inFork_of_ok rfl (hnext.trans he))]
      simp only [latest_bind, setLatest_bind, modifyScope_bind]
      rw [(hfirst.trans hbetween).absorb_next_types]
      rfl

theorem loopForked_eq {target iter : Expr} {orelse : List Stmt} (hbody : Steady body) :
    loopForked target iter orelse line body = loop target iter orelse line body := by
  unfold loopForked loop
  cases orelse with
  | cons => rfl
  | nil =>
    dsimp only
    rw [if_pos List.isEmpty_nil, if_pos List.isEmpty_nil]
    refine bind_congr fun index => ?_
    refine bind_congr fun operands => ?_
    refine bind_congr fun range => ?_
    refine bind_congr fun _ => ?_
    refine bind_congr fun _ => ?_
    funext s
    simp only [scope_bind, modifyScope_bind]
    have hfork := congrArg (fun scope => body ⟨scope, s.registry⟩) (s.scope.fork_fresh (-1))
    cases hb : body (s.withVersions (.fresh (-1))) with
    | error e =>
      rw [bind_of_error (inFork_of_error (hfork.trans hb))]
      exact (bind_of_error hb _).symm
    | ok p =>
      obtain ⟨inner, s₂⟩ := p
      have hgrows := hbody hb
      have hback : { s.scope with conditions := s₂.scope.conditions }.absorb s₂.scope .types =
          { s₂.scope with versions := s.scope.versions } :=
        Scope.absorb_types hgrows.owner hgrows.domains
      rw [bind_of_ok (inFork_of_ok rfl (hfork.trans hb))]
      refine Eq.trans ?_ (bind_of_ok hb _).symm
      simp only [scope_bind, modifyScope_bind]
      rw [hback]

theorem functionDefForked_eq {name : String} {parameters : List Parameter} :
    functionDefForked name parameters line body = functionDef name parameters line body := by
  refine bind_congr fun _ => ?_
  funext s
  refine (inFork_isolated_bind (f := pure) ?_).trans ?_
  · rfl
  · simp only [bind_assoc, pure_bind, scope_bind, modifyScope_bind]
    rfl

end Lowering

mutual

/-- To lower each nested block in a fork and to absorb what is left of it is to lower the block in
its scope. -/
theorem Stmt.lowerForked_eq (t : Stmt) : t.lowerForked = t.lower := by
  cases t with
  | functionDef name parameters body line =>
    rw [lowerForked, lower, lowerBlockForked_eq, functionDefForked_eq]
  | branch test body orelse line =>
    rw [lowerForked, lower, lowerBlockForked_eq, lowerBlockForked_eq]
    exact branchForked_eq lowerBlock_grows lowerBlock_grows
  | loop target iter body orelse line =>
    rw [lowerForked, lower, lowerBlockForked_eq]
    exact loopForked_eq lowerBlock_grows
  | _ => rfl

theorem Stmt.lowerBlockForked_eq (block : List Stmt) :
    Stmt.lowerBlockForked block = Stmt.lowerBlock block := by
  cases block with
  | nil => rfl
  | cons t rest => rw [lowerBlockForked, lowerBlock, lowerForked_eq t, lowerBlockForked_eq rest]

end

end ProgramGraph
