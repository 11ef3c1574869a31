import ProgramGraph.Table

/-! What all parts of a document share: the counters of generated names, the names taken from the
program, and the lambdas. -/
namespace ProgramGraph

structure Registry where
  /-- The next value of each counter. -/
  counters : Table Nat
  /-- Names taken from the program. -/
  claimed : List String
  /-- Texts of lambdas in the order in which they were written. -/
  sink : List String

namespace Registry

def empty : Registry := ⟨∅, [], []⟩

instance : Inhabited Registry := ⟨empty⟩

/-- The next value of a counter, from 0 on. -/
def take (r : Registry) (key : String) : Nat × Registry :=
  let n := (r.counters.get? key).getD 0
  (n, { r with counters := r.counters.insert key (n + 1) })

/-- A base name with the next value of its counter. -/
def next (r : Registry) (base : String) : String × Registry :=
  let (n, r) := r.take base
  (base ++ "_" ++ toString n, r)

/-- Reserve a name; nothing if it is already taken. -/
def claim? (r : Registry) (name : String) : Option Registry :=
  if r.claimed.contains name then none else some { r with claimed := name :: r.claimed }

def emit (r : Registry) (text : String) : Registry := { r with sink := r.sink ++ [text] }

end Registry
end ProgramGraph
