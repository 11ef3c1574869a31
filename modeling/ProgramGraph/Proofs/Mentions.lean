import ProgramGraph.Proofs.Literals.Flattening
import ProgramGraph.Proofs.Operands
import ProgramGraph.Proofs.Supply.Operands

/-! The variables and functions that an expression mentions, in order, and that its operands show all
of them, whatever was folded. -/
namespace ProgramGraph

open ProgramGraph.Graph

namespace Expr

/-- An only operator has an only comparator. -/
def isPaired : Expr → Bool
  | compare _ ops comparators _ => ops.length ≠ 1 || comparators.length ≤ 1
  | _ => true

/-- A name, or one behind names that qualify it. -/
def dotted? : Expr → Option String
  | name id _ _ => some id
  | member value attr _ _ => value.dotted?.map (· ++ "." ++ attr)
  | _ => none

mutual

/-- From left to right the names, the arrays of subscripts, and the functions that are called, each
before its arguments. -/
def mentions (e : Expr) : List Source :=
  match e with
  | .constant .. | .member .. | .unsupported .. => []
  | .name id _ _ => [.var id]
  | .binary _ left right _ => left.mentions ++ right.mentions
  | .unary _ operand _ => operand.mentions
  | .boolean _ values _ => mentionsOfEach values
  | .compare left _ comparators _ => left.mentions ++ mentionsOfEach comparators
  | .call func args _ _ => (func.dotted?.map Source.function).toList ++ mentionsOfEach args
  | .subscript (.name id _ _) _ _ _ => [.var id]
  | .subscript .. => []
  | .list elements _ _ | .tuple elements _ _ => mentionsOfEach elements

def mentionsOfEach (es : List Expr) : List Source :=
  match es with
  | [] => []
  | e :: rest => e.mentions ++ mentionsOfEach rest

end

theorem dotted?_of_callee (func : Expr) {line : Option Int} {x : String}
    (h : func.callee line = .ok x) : func.dotted? = some x := by
  cases func with
  | name => exact congrArg some (Except.ok.inj h)
  | member value attr access own =>
    obtain ⟨q, hq, h⟩ := except_bind_eq_ok.mp h
    obtain rfl := except_pure_eq_ok.mp h
    rw [dotted?, dotted?_of_callee value hq]
    rfl
  | _ => cases h

mutual

/-- The variables that are mentioned are those in value position. -/
theorem mentions_variables (e : Expr) :
    e.mentions.filterMap Source.variable? = e.uses.map Prod.fst := by
  cases e with
  | binary op left right line =>
    rw [mentions, uses, List.filterMap_append, List.map_append, mentions_variables left,
      mentions_variables right]
  | unary op operand line =>
    rw [mentions, uses, mentions_variables operand]
  | boolean op values line =>
    rw [mentions, uses, mentionsOfEach_variables values]
  | compare left ops comparators line =>
    rw [mentions, uses, List.filterMap_append, List.map_append, mentions_variables left,
      mentionsOfEach_variables comparators]
  | call func args keywords line =>
    have hcallee : (func.dotted?.map Source.function).toList.filterMap Source.variable? = [] := by
      cases func.dotted? <;> rfl
    rw [mentions, uses, List.filterMap_append, hcallee, List.nil_append,
      mentionsOfEach_variables args]
  | subscript value index access line => cases value <;> rfl
  | list elements access line => rw [mentions, uses, mentionsOfEach_variables elements]
  | tuple elements access line => rw [mentions, uses, mentionsOfEach_variables elements]
  | _ => rfl

theorem mentionsOfEach_variables (es : List Expr) :
    (mentionsOfEach es).filterMap Source.variable? = (usesOfEach es).map Prod.fst := by
  cases es with
  | nil => rfl
  | cons e rest =>
    rw [mentionsOfEach, usesOfEach, List.filterMap_append, List.map_append, mentions_variables e,
      mentionsOfEach_variables rest]

end

/-- Where all comparators belong to operators, a chain that folds loses no leaves. -/
theorem leavesOf_compareOperands {ops : List CompareOp} {rs : List (List Operand)}
    (h : ops.length ≠ 1 ∨ rs.length ≤ 1) (ls : List Operand) :
    Operand.leavesOf (compareOperands ops ls rs) =
      Operand.leavesOf ls ++ Operand.leavesOfArguments rs := by
  rcases compareOperands_eq ops ls rs with he | ⟨⟨l, he⟩, hl, op, r, rest, rfl, rfl, hr⟩
  · rw [he, Operand.leavesOf_append, Operand.leavesOf_flatten]
  · have hrest : rest = [] := by
      rw [List.length_singleton, List.length_cons] at h
      exact List.length_eq_zero_iff.mp (by omega)
    rw [he, hl, hrest, Operand.leavesOfArguments, hr]
    rfl

mutual

/-- The leaves of operands are what the expression mentions. -/
theorem sources_operands (e : Expr) {v v' : Versions} {os : List Operand}
    (h : e.operands v = .ok (os, v')) (hp : e.All isPaired) :
    (Operand.leavesOf os).map Source.ofInput = e.mentions := by
  cases e with
  | constant l line =>
    obtain ⟨rfl, -⟩ := pure_eq_ok.mp h
    rfl
  | name id access line =>
    cases access with
    | load =>
      obtain ⟨r, w, hr, h⟩ := bind_eq_ok.mp h
      obtain ⟨rfl, -⟩ := Versioning.read_eq_ok.mp hr
      obtain ⟨rfl, -⟩ := pure_eq_ok.mp h
      rfl
    | store =>
      obtain ⟨r, w, hw, h⟩ := bind_eq_ok.mp h
      obtain ⟨rfl, -⟩ := Versioning.write_eq_ok.mp hw
      obtain ⟨rfl, -⟩ := pure_eq_ok.mp h
      rfl
    | del => cases h
  | member value attr access line => cases h
  | binary op left right line =>
    obtain ⟨ls, w, rs, hls, hrs, rfl⟩ := binary_eq_ok h
    rw [leavesOf_binaryOperands, List.map_append, sources_operands left hls hp.binary.1,
      sources_operands right hrs hp.binary.2, mentions]
  | unary op operand line =>
    obtain ⟨ps, hps, rfl⟩ := unary_eq_ok h
    rw [leavesOf_unaryFold, sources_operands operand hps hp.unary, mentions]
  | boolean op values line =>
    obtain ⟨oss, hoss, rfl⟩ := boolean_eq_ok h
    rw [Operand.leavesOf_flatten, sources_operandsOfEach values hoss hp.boolean, mentions]
  | compare left ops comparators line =>
    obtain ⟨ls, w, rs, hls, hrs, rfl⟩ := compare_eq_ok h
    have hpaired : ops.length ≠ 1 ∨ rs.length ≤ 1 := by
      have hself : ops.length ≠ 1 ∨ comparators.length ≤ 1 := by simpa [isPaired] using hp.self
      rwa [length_operandsOfEach hrs] at hself
    rw [leavesOf_compareOperands hpaired, List.map_append, sources_operands left hls hp.compare.1,
      sources_operandsOfEach comparators hrs hp.compare.2, mentions]
  | call func args keywords line =>
    obtain ⟨callee, oss, -, hcallee, hoss, rfl⟩ := call_eq_ok h
    rw [mentions, dotted?_of_callee func hcallee, ← sources_operandsOfEach args hoss hp.call]
    simp only [Operand.leavesOf, Operand.leaves, List.append_nil]
    rfl
  | subscript value index access line =>
    obtain ⟨-, x, own, own', rfl, -, rfl, -⟩ := subscript_eq_ok h
    rfl
  | list elements access line =>
    obtain ⟨-, oss, hoss, rfl⟩ := list_eq_ok h
    rw [Operand.leavesOf_flatten, sources_operandsOfEach elements hoss hp.list, mentions]
  | tuple elements access line =>
    obtain ⟨-, oss, hoss, rfl⟩ := tuple_eq_ok h
    rw [Operand.leavesOf_flatten, sources_operandsOfEach elements hoss hp.tuple, mentions]
  | unsupported nodeType line => cases h

theorem sources_operandsOfEach (es : List Expr) {v v' : Versions} {oss : List (List Operand)}
    (h : operandsOfEach es v = .ok (oss, v')) (hp : ∀ e ∈ es, e.All isPaired) :
    (Operand.leavesOfArguments oss).map Source.ofInput = mentionsOfEach es := by
  cases es with
  | nil =>
    obtain ⟨rfl, -⟩ := pure_eq_ok.mp h
    rfl
  | cons e rest =>
    obtain ⟨os, w, others, hos, hothers, rfl⟩ := operandsOfEach_cons_eq_ok h
    rw [List.forall_mem_cons] at hp
    rw [Operand.leavesOfArguments, List.map_append, sources_operands e hos hp.1,
      sources_operandsOfEach rest hothers hp.2, mentionsOfEach]

end

end Expr
end ProgramGraph
