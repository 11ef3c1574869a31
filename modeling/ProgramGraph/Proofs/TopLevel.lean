import ProgramGraph.Lowering.Program

/-! Guards and modules leave no trace: a program is taken in as one list of the statements that
stand at its top level. -/
namespace ProgramGraph

/-- One module for a program, in which a body stands in place of each guard. -/
def Module.flat (ms : List Module) : Module := ⟨Module.topLevel ms⟩

namespace Assembly

theorem addAll_append (a : Assembly) (block rest : List Stmt) :
    a.addAll (block ++ rest) = proceed (fun a => a.addAll rest) (a.addAll block) := by
  induction block generalizing a with
  | nil => rfl
  | cons s block ih =>
    rw [List.cons_append, addAll, addAll]
    cases a.add s with
    | error fault => rfl
    | ok a => exact ih a

mutual

/-- A guard is entered where its body would be taken in. -/
theorem visit_eq (a : Assembly) (s : Stmt) : a.visit s = a.addAll s.topLevel := by
  cases s with
  | branch test body orelse line => exact visitBlock_eq a body
  | _ => rfl

theorem visitBlock_eq (a : Assembly) (block : List Stmt) :
    a.visitBlock block = a.addAll (Stmt.topLevelOf block) := by
  cases block with
  | nil => rfl
  | cons s rest =>
    rw [visitBlock, Stmt.topLevelOf, addAll_append, visit_eq a s]
    congr 1
    exact funext fun a => visitBlock_eq a rest

end

/-- Modules are taken in as the statements at top level of all of them. -/
theorem visitModules_eq (a : Assembly) (ms : List Module) :
    a.visitModules ms = a.addAll (Module.topLevel ms) := by
  induction ms generalizing a with
  | nil => rfl
  | cons m ms ih =>
    have htop : Module.topLevel (m :: ms) = Stmt.topLevelOf m.body ++ Module.topLevel ms := rfl
    rw [visitModules, htop, addAll_append, visitBlock_eq, funext ih]

end Assembly

theorem Outcome.ofModules_eq (ms : List Module) (name date : String) :
    ofModules ms name date = match ({} : Assembly).addAll (Module.topLevel ms) with
      | (a, some fault) => ⟨a.log, .error fault⟩
      | (a, none) =>
        let summary := "Lowered " ++ toString a.fragment.functions.length ++ " functions and " ++
          toString a.registry.sink.length ++ " lambdas"
        ⟨a.log ++ [summary], .ok ⟨a.document name date, a.registry.sink⟩⟩ := by
  rw [← Assembly.visitModules_eq]
  rfl

namespace Stmt

theorem topLevelOf_append (block rest : List Stmt) :
    topLevelOf (block ++ rest) = topLevelOf block ++ topLevelOf rest := by
  induction block with
  | nil => rfl
  | cons s block ih => rw [List.cons_append, topLevelOf, topLevelOf, ih, List.append_assoc]

mutual

/-- No guard is left at top level. -/
theorem topLevelOf_topLevel (s : Stmt) : topLevelOf s.topLevel = s.topLevel := by
  cases s with
  | branch test body orelse line => exact topLevelOf_topLevelOf body
  | _ => rfl

theorem topLevelOf_topLevelOf (block : List Stmt) :
    topLevelOf (topLevelOf block) = topLevelOf block := by
  cases block with
  | nil => rfl
  | cons s rest =>
    rw [topLevelOf, topLevelOf_append, topLevelOf_topLevel s, topLevelOf_topLevelOf rest]

end
end Stmt

theorem Module.topLevel_flat (ms : List Module) : topLevel [flat ms] = topLevel ms := by
  have hmodule (m : Module) :
      Stmt.topLevelOf (Stmt.topLevelOf m.body) = Stmt.topLevelOf m.body :=
    Stmt.topLevelOf_topLevelOf m.body
  change Stmt.topLevelOf (topLevel ms) ++ [] = topLevel ms
  rw [List.append_nil]
  induction ms with
  | nil => rfl
  | cons m ms ih =>
    have htop : topLevel (m :: ms) = Stmt.topLevelOf m.body ++ topLevel ms := rfl
    rw [htop, Stmt.topLevelOf_append, hmodule, ih]

/-- However a program is split into modules and whatever guards stand at its top level, the log and
the graph, or the first fault, are those of the one module without guards. -/
theorem Outcome.ofModules_flat (ms : List Module) (name date : String) :
    ofModules ms name date = ofModules [Module.flat ms] name date := by
  rw [ofModules_eq, ofModules_eq, Module.topLevel_flat]

end ProgramGraph
