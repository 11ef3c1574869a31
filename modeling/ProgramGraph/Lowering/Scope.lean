import ProgramGraph.Lowering.Registry
import ProgramGraph.Lowering.Versions
import ProgramGraph.Syntax.Source

/-! Scopes of a lowering, and what lowering a block produces. -/
namespace ProgramGraph

/-- The state of a function body, a branch or a loop body. -/
structure Scope where
  versions : Versions
  domains : Table Domain
  /-- Conditions of the enclosing function, each written exactly once. -/
  conditions : List String
  /-- The enclosing function. -/
  owner : Option String

namespace Scope

def top : Scope := ⟨.fresh 0, ∅, [], none⟩

/-- An isolated scope for the body of a function. -/
def ofFunction (name : String) : Scope := ⟨.fresh 0, ∅, [], some name⟩

/-- The start of generated names. -/
def name (s : Scope) : String := s.owner.getD "__module__"

def declare (s : Scope) (x : String) (d : Domain) : Scope :=
  { s with domains := s.domains.insert x d }

def declareDefault (s : Scope) (x : String) (d : Domain) : Scope :=
  if s.domains.contains x then s else s.declare x d

theorem declareDefault_eq (s : Scope) (x : String) (d : Domain) :
    ∃ domains, s.declareDefault x d = { s with domains := domains } := by
  unfold declareDefault
  split
  · exact ⟨s.domains, rfl⟩
  · exact ⟨s.domains.insert x d, rfl⟩

/-- A condition has the one version 0. -/
def addCondition (s : Scope) (x : String) : Scope :=
  { s.declare x .boolean with
    conditions := if s.conditions.contains x then s.conditions else s.conditions ++ [x]
    versions := s.versions.pin x 0 }

end Scope

/-- Functions and body records that come from a part of a program. -/
structure Fragment where
  functions : List Graph.Function
  records : List Graph.Record

namespace Fragment

def empty : Fragment := ⟨[], []⟩

instance : EmptyCollection Fragment := ⟨empty⟩

instance : Append Fragment where
  append a b := ⟨a.functions ++ b.functions, a.records ++ b.records⟩

end Fragment

/-- What lowering changes. -/
structure LoweringState where
  scope : Scope
  registry : Registry

abbrev Lowering (α : Type) := StateT LoweringState (Except Fault) α

namespace Lowering

def refuse {α : Type} (cause : Refusal) (line : Option Int) : Lowering α := fun _ =>
  .error ⟨cause, line⟩

def ofResult {α : Type} (r : Except Fault α) : Lowering α := fun s =>
  match r with
  | .ok a => .ok (a, s)
  | .error f => .error f

def scope : Lowering Scope := fun s => .ok (s.scope, s)

def modifyScope (f : Scope → Scope) : Lowering Unit := fun s =>
  .ok ((), { s with scope := f s.scope })

/-- Run on the versions of the scope. -/
def versioning {α : Type} (m : Versioning α) : Lowering α := fun s =>
  match m s.scope.versions with
  | .ok (a, v) => .ok (a, { s with scope := { s.scope with versions := v } })
  | .error f => .error f

def take (key : String) : Lowering Nat := fun s =>
  let (n, r) := s.registry.take key
  .ok (n, { s with registry := r })

def next (base : String) : Lowering String := fun s =>
  let (name, r) := s.registry.next base
  .ok (name, { s with registry := r })

def claim (name : String) (line : Option Int) : Lowering Unit := fun s =>
  match s.registry.claim? name with
  | some r => .ok ((), { s with registry := r })
  | none => .error ⟨.duplicateFunction name, line⟩

def emit (l : Lambda) : Lowering Unit := fun s =>
  .ok ((), { s with registry := s.registry.emit l.source })

end Lowering
end ProgramGraph
