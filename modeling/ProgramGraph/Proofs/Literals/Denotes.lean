import ProgramGraph.Proofs.Literals.Digits
import ProgramGraph.Proofs.Literals.Rounding
import ProgramGraph.Proofs.Literals.Values
import ProgramGraph.Proofs.Validity.Admissible

/-! Literals that stand for values, and the integers among them. -/
namespace ProgramGraph

/-- A literal stands for a value, of which it does not tell the sign of zero; integers are safe. -/
inductive Literal.Denotes : Literal → Value → Prop
  | integer {x : Binary64} {n : Int} (hx : x.value = n) (hn : Binary64.isSafe n = true) :
      Denotes ⟨.integer, .number x⟩ (.integer n)
  | real {r : Floating} : Denotes ⟨.real, .number r.number⟩ (.real r)
  | string {s : String} : Denotes ⟨.string, .string s⟩ (.string s)
  | boolean {b : Bool} : Denotes ⟨.boolean, .bool b⟩ (.boolean b)

namespace Literal

/-- The literal of a safe integer. -/
def ofSafe (n : Int) (h : Binary64.isSafe n = true) : Literal :=
  ⟨.integer, .number (.ofSafe n h)⟩

theorem denotes_ofSafe {n : Int} (h : Binary64.isSafe n = true) :
    (ofSafe n h).Denotes (.integer n) :=
  .integer rfl h

theorem denotes_make (x : Binary64) (negativeZero : Bool) :
    Denotes ⟨.real, .number x⟩ (.real (.make x negativeZero)) :=
  Denotes.real (r := .make x negativeZero)

theorem Denotes.domain {l : Literal} {v : Value} (h : l.Denotes v) : v.domain = l.domain := by
  cases h <;> rfl

theorem Denotes.text {l : Literal} {v : Value} (h : l.Denotes v) (hv : v.isNegativeZero = false) :
    v.text = l.text := by
  cases h with
  | integer hx hn => exact (Notation.write_plain_of_isSafe hx hn).symm
  | @real r =>
    have hr : r.isNegativeZero = false := hv
    simp only [Value.text, hr, Bool.false_eq_true, if_false]
    rfl
  | string => rfl
  | @boolean b => cases b <;> rfl

/-- A constant of which integers are safe denotes its value. -/
theorem denotes_of_value? {l : Literal} {v : Value} (h : l.value? = some v)
    (hs : l.isSafe = true) : l.Denotes v := by
  obtain ⟨domain, scalar⟩ := l
  unfold value? at h
  split at h
  · rename_i x hd hv
    obtain ⟨n, hn, rfl⟩ := Option.map_eq_some_iff.mp h
    dsimp only at hd hv
    subst hd hv
    have hsafe : Binary64.isSafe n = true := by simpa [isSafe, hn] using hs
    exact .integer (Binary64.value_of_toInt? hn) hsafe
  · rename_i x hd hv
    dsimp only at hd hv
    subst hd hv
    obtain rfl := Option.some.inj h
    exact denotes_make x false
  · rename_i s hd hv
    dsimp only at hd hv
    subst hd hv
    obtain rfl := Option.some.inj h
    exact .string
  · rename_i b hd hv
    dsimp only at hd hv
    subst hd hv
    obtain rfl := Option.some.inj h
    exact .boolean
  · cases h

section
variable {z : Binary64} {e : Int} {c : Literal}

/-- An integer that an operation rounds to is the integer itself if it can be represented. -/
theorem denotes_of_represented? (h : represented? .integer z = some c)
    (hround : Binary64.round? e = some z) : c.Denotes (.integer e) := by
  unfold represented? at h
  cases hz : z.toInt? with
  | none => simp [hz] at h
  | some k =>
    simp only [hz] at h
    split at h
    · rename_i hk
      obtain rfl := Option.some.inj h
      obtain rfl := Binary64.eq_of_round?_intCast hround hz hk
      exact .integer (Binary64.value_of_toInt? hz) hk
    · cases h

/-- A safe integer is rounded to a literal of it. -/
theorem exists_represented? (he : Binary64.isSafe e = true) :
    ∃ y l, Binary64.round? e = some y ∧ represented? .integer y = some l ∧
      l.Denotes (.integer e) := by
  obtain ⟨y, hy, hv⟩ := Binary64.round?_of_isSafe he
  refine ⟨y, ⟨.integer, .number y⟩, hy, ?_, .integer hv he⟩
  unfold represented?
  rw [Binary64.toInt?_of_value hv]
  exact if_pos he

end

end Literal
end ProgramGraph
