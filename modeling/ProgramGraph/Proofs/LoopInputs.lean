import Mathlib.Data.List.Nodup
import ProgramGraph.Proofs.Retention

/-! The inputs of a loop are the variables that its body has seen, each of them once. -/
namespace ProgramGraph

open ProgramGraph.Graph Lowering LoweringState

mutual

/-- Variables that a program assigns in running a statement, at any depth. A definition runs
nothing. -/
def Stmt.assigned (s : Stmt) : List String :=
  match s with
  | .assign targets _ _ => targets.filterMap Expr.targetName?
  | .annAssign target _ value _ => if value.isSome then target.targetName?.toList else []
  | .branch _ body orelse _ => assignedIn body ++ assignedIn orelse
  | .loop target _ body orelse _ =>
    target.targetName?.toList ++ assignedIn body ++ assignedIn orelse
  | .functionDef .. | .expr .. | .unsupported .. => []

def Stmt.assignedIn (block : List Stmt) : List String :=
  match block with
  | [] => []
  | s :: rest => s.assigned ++ assignedIn rest

end

/-- What a loop is lowered to: a plate behind those of its body, and one record that calls it with
the same inputs. Some variables other than the index are each among these once. -/
def Fragment.TakesAsInputs (f : Fragment) (index : String) (xs : List String) : Prop :=
  ∃ name inputs range body,
    f.functions.getLast? = some (.loopPlate name inputs index range body) ∧
      f.records = [.loop name inputs] ∧ ∀ x ∈ xs, x ≠ index → inputs.count x = 1

theorem LoweringState.nodup_loopInputs (s : LoweringState) (index : String) :
    (s.loopInputs index).Nodup :=
  s.versions.latest.nodup_keys.sublist List.filter_sublist

theorem LoweringState.mem_loopInputs {s : LoweringState} {index x : String} :
    x ∈ s.loopInputs index ↔ s.versions.Seen x ∧ x ≠ index := by
  unfold loopInputs
  rw [List.mem_filter, Versions.mem_keys_iff_seen, decide_eq_true_eq]

/-- A loop takes whatever its body writes in its own scope, nested conditionals among it, and the
indices of nested loops. -/
theorem Stmt.loop_takes_written {target iter : Expr} {body orelse : List Stmt} {line : Option Int}
    {s s' : LoweringState} {f : Fragment}
    (h : (Stmt.loop target iter body orelse line).lower s = .ok (f, s')) :
    ∃ index, target.targetName? = some index ∧ f.TakesAsInputs index (Stmt.writtenIn body) := by
  obtain ⟨-, index, os, v, range, inner, s₂, htarget, -, -, hbody, -, rfl⟩ := loop_eq_ok h
  obtain ⟨B, hB, -⟩ := Stmt.lowers_of_lowerBlock body hbody
  refine ⟨index, targetName?_of_loopIndex htarget, _, _, _, _, List.getLast?_concat, rfl, ?_⟩
  intro x hx hne
  have hseen : s₂.versions.Seen x := hB.covers.covered x hx
  have hmem : x ∈ s₂.loopInputs index := mem_loopInputs.mpr ⟨hseen, hne⟩
  exact List.count_eq_one_of_mem (s₂.nodup_loopInputs index) hmem

/-- The range from `a` to `b`. -/
def Expr.sampleRange : Expr :=
  let read (x : String) : Expr := .name x .load none
  .call (read "range") [read "a", read "b"] [] none

/-- An assignment under a condition, one in a nested loop, and a declared array. -/
def Stmt.sampleLoopBody : List Stmt :=
  let read (x : String) : Expr := .name x .load none
  let write (x : String) : Expr := .name x .store none
  let one : Expr := .constant ⟨.integer, .number (Binary64.round? 1).get!⟩ none
  [.branch (read "a") [.assign [write "w"] one none] [] none,
    .loop (write "j") .sampleRange [.assign [write "x"] one none] [] none,
    .annAssign (write "y") (.subscript (read "List") (read "int") .load none)
      (some (.list [one] .load none)) none]

def Stmt.sampleLoop : Stmt :=
  .loop (.name "i" .store none) .sampleRange Stmt.sampleLoopBody [] none

theorem Stmt.loop_takes_written_sample :
    ∃ f s', Stmt.sampleLoop.lower ⟨.ofFunction "f", .empty⟩ = .ok (f, s') ∧
      f.TakesAsInputs "i" (Stmt.writtenIn Stmt.sampleLoopBody) := by
  obtain ⟨f, s', h, -⟩ := exists_ok_of_any (m := Stmt.sampleLoop.lower)
    (s := ⟨.ofFunction "f", .empty⟩) (q := fun _ => true) (by decide +kernel)
  obtain ⟨index, hindex, ht⟩ := Stmt.loop_takes_written h
  obtain rfl : "i" = index := Option.some.inj hindex
  exact ⟨f, s', h, ht⟩

/-- Neither what a nested loop assigns nor an array that is only declared is an input. -/
theorem Stmt.loop_misses_nested_assignment :
    ∃ f s', Stmt.sampleLoop.lower ⟨.ofFunction "f", .empty⟩ = .ok (f, s') ∧
      ∀ x ∈ ["x", "y"], x ∈ Stmt.assignedIn Stmt.sampleLoopBody ∧ ¬ f.TakesAsInputs "i" [x] := by
  obtain ⟨f, s', h, hrecords⟩ := exists_ok_of_any (m := Stmt.sampleLoop.lower)
    (s := ⟨.ofFunction "f", .empty⟩)
    (q := fun p => decide (p.1.records =
      [.loop "f__loop_plate__i_0" ["a", "IF_0", "w", "b", "j"]])) (by decide +kernel)
  have hloop : f.records = _ := of_decide_eq_true hrecords
  have hmissing : ∀ x ∈ ["x", "y"], x ∈ Stmt.assignedIn Stmt.sampleLoopBody ∧ x ≠ "i" ∧
      ["a", "IF_0", "w", "b", "j"].count x = 0 := by decide
  refine ⟨f, s', h, fun x hx => ?_⟩
  obtain ⟨hassigned, hne, hzero⟩ := hmissing x hx
  refine ⟨hassigned, ?_⟩
  rintro ⟨name, inputs, range, body, -, hf, hcount⟩
  rw [hf] at hloop
  obtain ⟨-, rfl⟩ := Record.loop.inj (List.cons.inj hloop).1
  have hone := hcount x (List.mem_singleton_self x) hne
  omega

end ProgramGraph
