import ProgramGraph.Fault
import ProgramGraph.Graph.Basic
import ProgramGraph.Table

/-! Versions of the variables of one scope. -/
namespace ProgramGraph

structure Versions where
  /-- The version that a read sees. -/
  latest : Table Int
  /-- The version that the next write receives. -/
  next : Table Int
  /-- The version of a variable that was not written yet. -/
  baseline : Int

namespace Versions

def fresh (baseline : Int) : Versions := ⟨∅, ∅, baseline⟩

/-- The current version for a read. A variable seen for the first time is pinned at the
baseline. -/
def read (v : Versions) (x : String) : Int × Versions :=
  match v.latest.get? x with
  | some n => (n, v)
  | none => (v.baseline, { v with latest := v.latest.insert x v.baseline })

/-- A new version, visible to reads from now on. -/
def write (v : Versions) (x : String) : Int × Versions :=
  let n := (v.next.get? x).getD (v.baseline + 1)
  (n, { v with latest := v.latest.insert x n, next := v.next.insert x (n + 1) })

/-- Make a given version visible without a write. -/
def pin (v : Versions) (x : String) (n : Int) : Versions :=
  { v with latest := v.latest.insert x n }

end Versions

/-- Computations that read and write versions and may be refused. -/
abbrev Versioning (α : Type) := StateT Versions (Except Fault) α

namespace Versioning

def read (x : String) : Versioning Reference := fun v =>
  let (n, v) := v.read x
  .ok (⟨x, n⟩, v)

def write (x : String) : Versioning Reference := fun v =>
  let (n, v) := v.write x
  .ok (⟨x, n⟩, v)

/-- A computation without versions. -/
def ofResult {α : Type} (r : Except Fault α) : Versioning α := fun v =>
  match r with
  | .ok a => .ok (a, v)
  | .error f => .error f

def refuse {α : Type} (cause : Refusal) (line : Option Int) : Versioning α := fun _ =>
  .error ⟨cause, line⟩

end Versioning
end ProgramGraph
