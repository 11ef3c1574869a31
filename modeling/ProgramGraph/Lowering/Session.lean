import ProgramGraph.Lowering.Program

/-! Sessions: single steps of lowering over numbered scopes that share their names. -/
namespace ProgramGraph

/-- The maps of a scope. -/
inductive ScopeMap where
  | last | next | types
deriving DecidableEq

/-- What a forked scope does not take from the one it is forked from. -/
structure ForkOptions where
  last : Option (Table Int) := none
  next : Option (Table Int) := none
  types : Option (Table Domain) := none
  conditions : Option (List String) := none
  baseline : Option Int := none
  owner : Option String := none

def Scope.fork (s : Scope) (o : ForkOptions) : Scope where
  versions := ⟨o.last.getD s.versions.latest, o.next.getD s.versions.next,
    o.baseline.getD s.versions.baseline⟩
  domains := o.types.getD s.domains
  conditions := (o.conditions.map distinct).getD s.conditions
  owner := o.owner <|> s.owner

/-- Copy the entries of a map of another scope, overwriting. -/
def Scope.absorb (s t : Scope) (map : ScopeMap) : Scope :=
  let v := s.versions
  let w := t.versions
  match map with
  | .last => { s with versions := { v with latest := v.latest.absorb w.latest } }
  | .next => { s with versions := { v with next := v.next.absorb w.next } }
  | .types => { s with domains := s.domains.absorb t.domains }

/-- A scope, and the number of its set of conditions, which several scopes may share. -/
structure SharedScope where
  scope : Scope
  conditionSet : Nat

structure Session where
  scopes : Array SharedScope := #[⟨.top, 0⟩]
  conditionSets : Array (List String) := #[[]]
  registry : Registry := .empty
  log : List String := []

namespace Session

inductive Step where
  | fork (options : ForkOptions)
  | read (name : String)
  | write (name : String)
  | next (base : String)
  | take (key : String)
  | claim (name : String)
  | absorb (map : ScopeMap) (source : Nat)
  | operands (e : Expr)
  | target (e : Expr)
  | flatten (e : Expr) (carried : List Reference)
  | block (body : List Stmt)
  | modules (ms : List Module)
  | emit (text : String)
  | sink
  | log

/-- The flattened views of an expression beside a list of carried versions. -/
structure Views where
  sources : List Graph.Source
  inputs : List Graph.Input
  parameters : List String
  carried : List Graph.Source

inductive Answer where
  | done
  | scope (number : Nat)
  | version (n : Int)
  | name (s : String)
  | counter (n : Nat)
  | claimed (isNew : Bool)
  | operands (os : List Operand)
  | target (t : Target)
  | views (v : Views)
  | fragment (f : Fragment)
  | program (f : Fragment) (start : Option String)
  | sink (count : Nat) (text : String)
  | log (lines : List String)

/-- A scope with the present conditions of its set. -/
def scopeAt (s : Session) (number : Nat) : Scope :=
  match s.scopes[number]? with
  | some shared =>
    { shared.scope with conditions := (s.conditionSets[shared.conditionSet]?).getD [] }
  | none => .top

def conditionSetOf (s : Session) (number : Nat) : Nat :=
  ((s.scopes[number]?).map SharedScope.conditionSet).getD 0

def setScope (s : Session) (number : Nat) (scope : Scope) : Session :=
  let set := s.conditionSetOf number
  { s with
    scopes := s.scopes.setIfInBounds number ⟨scope, set⟩
    conditionSets := s.conditionSets.setIfInBounds set scope.conditions }

/-- Run within a scope. -/
def within {α : Type} (s : Session) (number : Nat) (m : Lowering α) :
    Except Fault (α × Session) :=
  match m ⟨s.scopeAt number, s.registry⟩ with
  | .ok (a, state) => .ok (a, { s with registry := state.registry }.setScope number state.scope)
  | .error fault => .error fault

/-- A fork shares the set of conditions unless it brings its own. -/
def fork (s : Session) (number : Nat) (options : ForkOptions) : Session :=
  let scope := (s.scopeAt number).fork options
  if options.conditions.isSome then
    { s with
      scopes := s.scopes.push ⟨scope, s.conditionSets.size⟩
      conditionSets := s.conditionSets.push scope.conditions }
  else { s with scopes := s.scopes.push ⟨scope, s.conditionSetOf number⟩ }

private def views (carried : List Reference) (os : List Operand) : Views where
  sources := Operand.sources os carried
  inputs := Operand.inputs os carried
  parameters := Operand.parameters os carried
  carried := carried.map Graph.Source.versioned

/-- The answer to a step in a scope, the scope that it is about, and what follows. -/
def perform (s : Session) (number : Nat) (step : Step) : Except Fault (Answer × Nat × Session) :=
  match step with
  | .fork options => .ok (.scope s.scopes.size, s.scopes.size, s.fork number options)
  | .read name => do
    let (r, s) ← s.within number (Lowering.versioning (.read name))
    return (.version r.index, number, s)
  | .write name => do
    let (r, s) ← s.within number (Lowering.versioning (.write name))
    return (.version r.index, number, s)
  | .next base =>
    let (name, registry) := s.registry.next base
    .ok (.name name, number, { s with registry := registry })
  | .take key =>
    let (n, registry) := s.registry.take key
    .ok (.counter n, number, { s with registry := registry })
  | .claim name =>
    match s.registry.claim? name with
    | some registry => .ok (.claimed true, number, { s with registry := registry })
    | none => .ok (.claimed false, number, s)
  | .absorb map source =>
    .ok (.done, number, s.setScope number ((s.scopeAt number).absorb (s.scopeAt source) map))
  | .operands e => do
    let (os, s) ← s.within number (Lowering.versioning e.operands)
    return (.operands os, number, s)
  | .target e => do
    let (t, s) ← s.within number (Lowering.versioning e.target)
    return (.target t, number, s)
  | .flatten e carried => do
    let (os, s) ← s.within number (Lowering.versioning e.operands)
    return (.views (views carried os), number, s)
  | .block body => do
    let (f, s) ← s.within number (Stmt.lowerBlock body)
    return (.fragment f, number, s)
  | .modules ms =>
    match ({ registry := s.registry } : Assembly).visitModules ms with
    | (_, some fault) => .error fault
    | (a, none) =>
      let s := { s with registry := a.registry, log := s.log ++ a.log }
      .ok (.program a.fragment a.start, number, s)
  | .emit text => .ok (.done, number, { s with registry := s.registry.emit text })
  | .sink =>
    let texts := s.registry.sink
    .ok (.sink texts.length (String.join texts), number, s)
  | .log => .ok (.log s.log, number, s)

end Session
end ProgramGraph
